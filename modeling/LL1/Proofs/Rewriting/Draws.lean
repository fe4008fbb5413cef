/-
# How many symbols a rewriting draws

The loop that rewrites a grammar takes the first pending non-terminal and settles it, or divides it
under a symbol that nothing uses. A division makes what is pending lighter, so the number of symbols
that are drawn is bounded by the weight of the grammar, whichever symbols there are. Every run of
the loop takes turns of this kind, and what it draws is the beginning of its supply.
-/
import LL1.Proofs.Rewriting.Weight.Factoring
import LL1.Proofs.Rewriting.Weight.Unrolling

namespace LL1

/-! ## Divisions -/

/-- Whether no alternative is listed twice and none is empty. -/
structure NonTerminal.Clean (n : NonTerminal) : Prop where
  /-- No alternative is listed twice. -/
  nodup : n.alternatives.Nodup
  /-- No alternative is empty. -/
  body_ne_nil : ∀ body ∈ n.alternatives, body ≠ []

section Divided

variable {n : NonTerminal} {d : Division} {x : Symbol}

/-- A non-terminal of a well-formed grammar is clean. -/
theorem NonTerminal.WellFormed.clean {declared : List Symbol} (h : n.WellFormed declared) :
    n.Clean :=
  ⟨h.nodup, h.body_ne_nil⟩

/-- Both parts of a division are clean. -/
theorem clean_of_divide (hn : n.Clean) (h : n.plan = .divide d) (x : Symbol) :
    (d.head x).Clean ∧ (d.tail x).Clean := by
  rcases divide_cases h with ⟨f, hf, rfl⟩ | ⟨u, -, rfl⟩
  · have hcuts := cuts_of_factoring? hn.nodup hf
    refine ⟨⟨NonTerminal.nodup_ofAlternatives _ _, fun body hbody => ?_⟩,
      ⟨NonTerminal.nodup_ofAlternatives _ _, fun body hbody => ?_⟩⟩
    · rcases Factoring.mem_head_cases hbody with hother | rfl
      · exact hn.body_ne_nil body (hcuts.mem_alternatives_iff.2 (Or.inl hother))
      · exact List.append_ne_nil_of_right_ne_nil _ (List.cons_ne_nil _ _)
    · obtain ⟨e, -, rfl⟩ := mem_alternatives_tail_factoring.1 hbody
      exact spelled_ne_nil e
  · refine ⟨⟨NonTerminal.nodup_ofAlternatives _ _, fun body hbody => ?_⟩,
      ⟨NonTerminal.nodup_ofAlternatives _ _, fun body hbody => ?_⟩⟩
    · obtain ⟨w, -, rfl⟩ := mem_alternatives_head_unrolling.1 hbody
      exact List.append_ne_nil_of_right_ne_nil _ (List.cons_ne_nil _ _)
    · rcases mem_alternatives_tail_unrolling.1 hbody with ⟨w, -, rfl⟩ | rfl
      · exact List.append_ne_nil_of_right_ne_nil _ (List.cons_ne_nil _ _)
      · exact List.cons_ne_nil _ _

/-- Both parts of a division weigh less than what is divided, if the symbol that is drawn is unused.
-/
theorem weight_lt_of_divide (hn : n.Clean) (h : n.plan = .divide d) (hx : x ≠ epsilon)
    (hsymbol : n.symbol ≠ x) (hunused : ∀ body ∈ n.alternatives, x ∉ body) :
    (d.head x).weight + (d.tail x).weight < n.weight := by
  rcases divide_cases h with ⟨f, hf, rfl⟩ | ⟨u, hu, rfl⟩
  · exact (cuts_of_factoring? hn.nodup hf).weight_lt hn.nodup hx hunused
  · exact weight_unrolling_lt hn.body_ne_nil hu hx hsymbol hunused

/-- What is divided weighs something. -/
theorem weight_pos_of_divide (hn : n.Clean) (h : n.plan = .divide d) : 0 < n.weight := by
  rcases divide_cases h with ⟨f, hf, rfl⟩ | ⟨u, hu, rfl⟩
  · exact (cuts_of_factoring? hn.nodup hf).weight_pos hn.nodup
  · exact weight_pos_of_recursion hu

end Divided

/-! ## Visits -/

/-- A moment of a rewriting. -/
structure Visit where
  /-- The non-terminals that are done with. -/
  done : List NonTerminal
  /-- The non-terminals that are still to be looked at. -/
  pending : List NonTerminal

namespace Visit

/-- One turn of the loop, with the symbols that it draws. The symbol under which a non-terminal is
divided may be any symbol that is not used. -/
inductive Turn : Visit → List Symbol → Visit → Prop where
  /-- The first pending non-terminal is settled. -/
  | settle {done rest : List NonTerminal} {n k : NonTerminal} {dropped : Nat}
    (h : n.plan = .settle k dropped) : Turn ⟨done, n :: rest⟩ [] ⟨done ++ [k], rest⟩
  /-- The first pending non-terminal is divided. -/
  | divide {done rest : List NonTerminal} {n : NonTerminal} {d : Division} {x : Symbol}
    (h : n.plan = .divide d) (hx : x ≠ epsilon) (hunused : Unused x (done ++ n :: rest)) :
    Turn ⟨done, n :: rest⟩ [x] ⟨done, d.head x :: d.tail x :: rest⟩

/-- A number of turns, with the symbols that they draw. -/
inductive Turns : Visit → Nat → List Symbol → Visit → Prop where
  /-- No turn. -/
  | refl (v : Visit) : Turns v 0 [] v
  /-- One turn, and then others. -/
  | cons {u v w : Visit} {drawn more : List Symbol} {turns : Nat} (first : Turn u drawn v)
    (rest : Turns v turns more w) : Turns u (turns + 1) (drawn ++ more) w

/-- How the loop ends, by what is left of the supply. -/
inductive Ends (v : Visit) (left : Supply) : Except RewriteFailure (List NonTerminal) → Prop where
  /-- Nothing is pending. -/
  | finished (h : v.pending = []) : Ends v left (.ok v.done)
  /-- The first pending non-terminal has no base case. -/
  | refused {n : NonTerminal} {rest : List NonTerminal} (h : v.pending = n :: rest)
    (hplan : n.plan = .refuse) : Ends v left (.error (.noBaseCase n.symbol))
  /-- The first pending non-terminal would be divided, and no symbol is left. -/
  | exhausted {n : NonTerminal} {rest : List NonTerminal} {d : Division} (h : v.pending = n :: rest)
    (hplan : n.plan = .divide d) (hleft : left = []) : Ends v left (.error .symbolsExhausted)

/-- The weight of what is pending. -/
def weight (v : Visit) : Nat :=
  (v.pending.map NonTerminal.weight).sum

/-- Whether everything that is pending is clean. -/
def Clean (v : Visit) : Prop :=
  ∀ n ∈ v.pending, n.Clean

variable {u v : Visit} {drawn : List Symbol} {turns : Nat}

/-- The first pending non-terminal and the others, whatever is done with. -/
theorem weight_cons (done done' rest : List NonTerminal) (n : NonTerminal) :
    weight ⟨done, n :: rest⟩ = n.weight + weight ⟨done', rest⟩ :=
  List.sum_cons

/-- A turn pays for what it draws. It leaves less pending, or as much and one non-terminal less. -/
theorem Turn.spends (h : Turn u drawn v) (hu : u.Clean) :
    v.Clean ∧ v.weight + drawn.length ≤ u.weight ∧
      2 * v.weight + v.pending.length < 2 * u.weight + u.pending.length := by
  cases h with
  | @settle done rest n k dropped h =>
    refine ⟨fun j hj => hu j (List.mem_cons_of_mem n hj), ?_, ?_⟩
    · rw [weight_cons done (done ++ [k]), List.length_nil]
      omega
    · rw [weight_cons done (done ++ [k])]
      dsimp only
      rw [List.length_cons]
      omega
  | @divide done rest n d x h hx hunused =>
    obtain ⟨hsymbol, hbodies⟩ := hunused n (by simp)
    have hn := hu n List.mem_cons_self
    have hless := weight_lt_of_divide hn h hx hsymbol hbodies
    have hbefore := weight_cons done done rest n
    have hafter : weight ⟨done, d.head x :: d.tail x :: rest⟩ =
        (d.head x).weight + ((d.tail x).weight + weight ⟨done, rest⟩) := by
      rw [weight_cons done done, weight_cons done done]
    obtain ⟨hhead, htail⟩ := clean_of_divide hn h x
    refine ⟨List.forall_mem_cons.2 ⟨hhead, List.forall_mem_cons.2 ⟨htail, fun j hj =>
      hu j (List.mem_cons_of_mem n hj)⟩⟩, ?_, ?_⟩
    · rw [hbefore, hafter, List.length_singleton]
      omega
    · rw [hbefore, hafter]
      dsimp only
      rw [List.length_cons, List.length_cons, List.length_cons]
      omega

/-- Any number of turns pay for what they draw, and there are no more of them than the weight
allows. -/
theorem Turns.spends (h : Turns u turns drawn v) (hu : u.Clean) :
    v.Clean ∧ v.weight + drawn.length ≤ u.weight ∧
      2 * v.weight + v.pending.length + turns ≤ 2 * u.weight + u.pending.length := by
  induction h with
  | refl v => exact ⟨hu, Nat.le_refl _, Nat.le_refl _⟩
  | cons first rest ih =>
    obtain ⟨hclean, hdrawn, hturn⟩ := first.spends hu
    obtain ⟨hlast, hmore, hturns⟩ := ih hclean
    refine ⟨hlast, ?_, ?_⟩
    · rw [List.length_append]
      omega
    · omega

/-! ## Runs -/

variable {g : Grammar} {supply : Supply} {done pending : List NonTerminal}

/-- What is settled in front of the result of a run joins what is done with. -/
theorem map_result_push (e : Elimination) (done : List NonTerminal) (k : NonTerminal) :
    (e.push k).result.map (done ++ ·) = e.result.map (done ++ [k] ++ ·) := by
  unfold Elimination.push
  cases e.result with
  | error failure => rfl
  | ok out => simp only [Except.map, List.append_assoc, List.singleton_append]

/-- A run of the loop takes turns until it ends, and what they draw is the beginning of its supply.
-/
theorem exists_turns_of_run (h : g.RewrittenTo supply (done ++ pending)) :
    ∃ turns drawn left v, supply = drawn ++ left ∧ Turns ⟨done, pending⟩ turns drawn v ∧
      v.Ends left ((Elimination.run supply pending).result.map (done ++ ·)) := by
  induction supply, pending using Elimination.run.induct generalizing done with
  | case1 supply =>
    refine ⟨0, [], supply, _, rfl, .refl _, ?_⟩
    rw [Elimination.run]
    have hend : Ends ⟨done, []⟩ supply (.ok done) := .finished rfl
    simpa only [Except.map, List.append_nil] using hend
  | case2 supply n rest ih =>
    rw [Elimination.run.eq_def]
    cases hplan : n.plan with
    | refuse =>
      simp only [hplan, Elimination.report]
      exact ⟨0, [], supply, _, rfl, .refl _, .refused rfl hplan⟩
    | settle k dropped =>
      simp only [hplan, Elimination.report] at ih ⊢
      have hturn : Turn ⟨done, n :: rest⟩ [] ⟨done ++ [k], rest⟩ := .settle hplan
      obtain ⟨turns, drawn, left, v, hsupply, hturns, hend⟩ := ih (h.step (.settle hplan))
      refine ⟨turns + 1, drawn, left, v, hsupply, .cons hturn hturns, ?_⟩
      rw [map_result_push]
      exact hend
    | divide d =>
      cases supply with
      | nil =>
        simp only [hplan, Elimination.report]
        exact ⟨0, [], [], _, rfl, .refl _, .exhausted rfl hplan rfl⟩
      | cons x supply =>
        simp only [hplan, Elimination.report] at ih ⊢
        obtain ⟨hx, hunused⟩ := h.unused_of_mem List.mem_cons_self
        have hturn : Turn ⟨done, n :: rest⟩ [x] ⟨done, d.head x :: d.tail x :: rest⟩ :=
          .divide hplan hx hunused
        have hstep : g.RewrittenTo supply (done ++ [d.head x, d.tail x] ++ rest) :=
          Grammar.RewrittenTo.step (.divide x hplan) h
        rw [List.append_assoc] at hstep
        obtain ⟨turns, drawn, left, v, hsupply, hturns, hend⟩ := ih hstep
        exact ⟨turns + 1, x :: drawn, left, v, congrArg _ hsupply, .cons hturn hturns, hend⟩

end Visit

/-! ## Grammars -/

namespace Grammar

variable {g : Grammar} {supply : Supply}

/-- The number of symbols on the right-hand sides. -/
def bodySize (g : Grammar) : Nat :=
  (g.rules.map fun r => r.body.length).sum

/-- The moment at which the rewriting of a grammar begins. -/
def visit (g : Grammar) : Visit :=
  ⟨[], g.nonTerminals⟩

/-- A grammar weighs at most seven times its right-hand sides. -/
theorem weight_visit_le (g : Grammar) : g.visit.weight ≤ 7 * g.bodySize := by
  obtain ⟨ns⟩ := g
  show (ns.map NonTerminal.weight).sum ≤ 7 * bodySize ⟨ns⟩
  induction ns with
  | nil => exact Nat.zero_le _
  | cons n rest ih =>
    have hsize : bodySize ⟨n :: rest⟩ = n.size + bodySize ⟨rest⟩ := by
      unfold bodySize rules
      rw [List.flatMap_cons, List.map_append, List.sum_append]
      congr 1
      rw [NonTerminal.rules, List.map_map]
      rfl
    have hweight := n.weight_le
    rw [List.map_cons, List.sum_cons, hsize]
    omega

/-- The turns of the loop on a well-formed grammar, however often it draws. -/
theorem turns_le (hg : g.WellFormed) {turns : Nat} {drawn : List Symbol} {v : Visit}
    (h : g.visit.Turns turns drawn v) :
    v.Clean ∧ v.weight + drawn.length ≤ 7 * g.bodySize ∧
      turns ≤ 14 * g.bodySize + g.nonTerminals.length := by
  obtain ⟨hclean, hdrawn, hturns⟩ := h.spends fun n hn => (hg.each n hn).clean
  have hweight := g.weight_visit_le
  have hlength : g.visit.pending.length = g.nonTerminals.length := rfl
  exact ⟨hclean, by omega, by omega⟩

/-- A run takes turns until it ends, and what they draw is the beginning of its supply. -/
theorem exists_turns (h : g.RewrittenTo supply g.nonTerminals) :
    ∃ turns drawn left v, supply = drawn ++ left ∧ g.visit.Turns turns drawn v ∧
      v.Ends left (Elimination.run supply g.nonTerminals).result := by
  have hstart : g.RewrittenTo supply ([] ++ g.nonTerminals) := h
  obtain ⟨turns, drawn, left, v, hsupply, hturns, hend⟩ := Visit.exists_turns_of_run hstart
  have hresult : (Elimination.run supply g.nonTerminals).result.map ([] ++ ·) =
      (Elimination.run supply g.nonTerminals).result := by
    cases (Elimination.run supply g.nonTerminals).result <;> rfl
  rw [hresult] at hend
  exact ⟨turns, drawn, left, v, hsupply, hturns, hend⟩

/-- A supply that is large enough is not exhausted. -/
theorem run_ne_exhausted (hg : g.WellFormed) (h : g.RewrittenTo supply g.nonTerminals)
    (hlength : 7 * g.bodySize ≤ supply.length) :
    (Elimination.run supply g.nonTerminals).result ≠ .error .symbolsExhausted := by
  intro hfails
  obtain ⟨turns, drawn, left, v, hsupply, hturns, hend⟩ := exists_turns h
  obtain ⟨hclean, hdrawn, -⟩ := turns_le hg hturns
  rw [hfails] at hend
  cases hend with
  | @exhausted n rest d hpending hplan hleft =>
    -- there is still something to divide, so less was drawn than the weight allows
    have hpos := weight_pos_of_divide (hclean n (hpending ▸ List.mem_cons_self)) hplan
    have hweight : n.weight ≤ v.weight := by
      rw [Visit.weight, hpending, List.map_cons, List.sum_cons]
      exact Nat.le_add_right _ _
    rw [hsupply, hleft, List.append_nil] at hlength
    omega

/-- The loop that rewrites a loaded grammar ends, even if every draw gives an unused symbol: it
draws at most ten symbols for each symbol on a right-hand side, and takes a bounded number of turns.
Every run of the rewriting takes such turns, under whatever supply of undeclared upper-case symbols,
and draws the beginning of its supply. So the supply is not exhausted if that many upper-case
symbols are not declared. -/
theorem draws_le_of_ofLines {lines : List (List Char)} (hload : ofLines lines = .ok g) :
    (∀ turns drawn v, g.visit.Turns turns drawn v →
      drawn.length ≤ 10 * g.bodySize ∧ turns ≤ 20 * g.bodySize + g.nonTerminals.length) ∧
    (∀ supply : Supply, supply.Nodup → (∀ x ∈ supply, isUppercase x = true ∧ x ∉ g.symbols) →
      (∃ turns drawn left v, supply = drawn ++ left ∧ g.visit.Turns turns drawn v ∧
        v.Ends left (Elimination.run supply g.nonTerminals).result) ∧
      (10 * g.bodySize ≤ supply.length →
        (Elimination.run supply g.nonTerminals).result ≠ .error .symbolsExhausted)) ∧
    (10 * g.bodySize ≤ g.supply.length → g.eliminate ≠ .error .symbolsExhausted) := by
  have hg := wellFormed_of_ofLines hload
  refine ⟨fun turns drawn v h => ?_, fun supply hnodup hsupply => ?_, fun hlength hfails => ?_⟩
  · obtain ⟨-, hdrawn, hturns⟩ := turns_le hg h
    exact ⟨by omega, by omega⟩
  · have hrewritten := rewrittenTo_of_supply hg hnodup hsupply
    exact ⟨exists_turns hrewritten, fun hlength => run_ne_exhausted hg hrewritten (by omega)⟩
  · exact run_ne_exhausted hg (rewrittenTo_self hg) (by omega) (failure_of_eliminate hfails)

/-- `S->ab | ac | Sd` has six symbols on its right-hand sides. It is factored and then unrolled,
which takes the two lowest symbols of its supply. -/
theorem draws_le_of_ofLines_of_both_vices :
    ∃ g : Grammar, ofLines ["S->ab".toList, "S->ac".toList, "S->Sd".toList] = .ok g ∧
      g.bodySize = 6 ∧
      (∀ turns drawn v, g.visit.Turns turns drawn v → drawn.length ≤ 60 ∧ turns ≤ 121) ∧
      (∃ turns drawn left v, g.supply = drawn ++ left ∧ g.visit.Turns turns drawn v ∧
        v.Ends left g.elimination.result) ∧
      g.elimination.result.toOption.map (·.map NonTerminal.symbol) = some ['S', 'B', 'A'] ∧
      60 ≤ g.supply.length ∧ g.eliminate ≠ .error .symbolsExhausted := by
  have hload : ofLines ["S->ab".toList, "S->ac".toList, "S->Sd".toList] =
      .ok ⟨[⟨'S', [['a', 'b'], ['a', 'c'], ['S', 'd']]⟩]⟩ := rfl
  obtain ⟨hturns, hruns, hsupply⟩ := draws_le_of_ofLines hload
  have hlength : 60 ≤ (Grammar.mk [⟨'S', [['a', 'b'], ['a', 'c'], ['S', 'd']]⟩]).supply.length := by
    decide +kernel
  refine ⟨_, hload, rfl, hturns, ?_, by decide +kernel, hlength, hsupply hlength⟩
  exact (hruns _ (nodup_outside _)
    fun x hx => ⟨isUppercase_of_mem_outside hx, (mem_outside.1 hx).2⟩).1

end Grammar

end LL1
