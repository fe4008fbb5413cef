/-
# What one step returns

A step may be carried out for any non-terminal, not only for those of a well-formed grammar: its
alternatives may be empty and mention any symbols. All that is needed is a supply that hands out no
symbol the non-terminal uses. Here this is worked out for the removal of left recursion: if some
alternative does not begin with the non-terminal then there is a result, and the least language of the
non-terminal stays the same whatever the other symbols mean.
-/
import LL1.Proofs.Rewriting.Step
import LL1.Proofs.Symbol.Supply

namespace LL1

/-! ## Fresh symbols for one non-terminal -/

/-- Whether some used symbols cover a non-terminal: its name is among them, and the upper-case symbols
of its alternatives. -/
structure NonTerminal.CoveredBy (n : NonTerminal) (used : List Symbol) : Prop where
  /-- The name is used. -/
  symbol : n.symbol ∈ used
  /-- The upper-case symbols of the alternatives are used. -/
  mentioned : ∀ s, n.Mentions s → isUppercase s = true → s ∈ used

/-- A non-terminal is covered if that can be seen symbol by symbol. -/
theorem NonTerminal.coveredBy_iff {n : NonTerminal} {used : List Symbol} :
    n.CoveredBy used ↔ n.symbol ∈ used ∧
      (n.alternatives.all fun body => body.all fun s => !isUppercase s || decide (s ∈ used)) = true := by
  simp only [List.all_eq_true, Bool.or_eq_true, Bool.not_eq_true', decide_eq_true_eq]
  constructor
  · refine fun h => ⟨h.symbol, fun body hbody s hs => ?_⟩
    cases hup : isUppercase s with
    | false => exact Or.inl rfl
    | true => exact Or.inr (h.mentioned s ⟨body, hbody, hs⟩ hup)
  · rintro ⟨hsymbol, hbodies⟩
    refine ⟨hsymbol, fun s ⟨body, hbody, hs⟩ hup => (hbodies body hbody s hs).resolve_left ?_⟩
    rw [hup]
    exact Bool.noConfusion

instance (n : NonTerminal) (used : List Symbol) : Decidable (n.CoveredBy used) :=
  decidable_of_iff _ NonTerminal.coveredBy_iff.symm

/-- A symbol that can be drawn for a non-terminal. -/
structure NonTerminal.Admits (n : NonTerminal) (used : List Symbol) (x : Symbol) : Prop where
  /-- It is upper case. -/
  uppercase : isUppercase x = true
  /-- It is not used. -/
  notMem : x ∉ used
  /-- The non-terminal neither bears it nor mentions it. -/
  unused : Unused x [n]

/-- The non-terminals that are put in the place of one. -/
def Rewrite.nonTerminals : Rewrite → List NonTerminal
  | .single n => [n]
  | .split head fresh => [head, fresh]

variable {n : NonTerminal} {used : List Symbol} {x : Symbol}

/-- No alternative mentions a symbol that can be drawn. -/
theorem NonTerminal.Admits.notMem_body (h : n.Admits used x) : ∀ body ∈ n.alternatives, x ∉ body :=
  (h.unused n (List.mem_singleton_self n)).2

/-- A supply outside the symbols that cover a non-terminal, if it is not exhausted, hands out a symbol
that the non-terminal does not use. -/
theorem NonTerminal.CoveredBy.exists_draw (h : n.CoveredBy used)
    (hsupply : Supply.outside used ≠ []) :
    ∃ x rest, Supply.outside used = x :: rest ∧ n.Admits used x := by
  obtain ⟨x, rest, hdraw⟩ := List.exists_cons_of_ne_nil hsupply
  have hx : x ∈ Supply.outside used := by
    rw [hdraw]
    exact List.mem_cons_self
  have hup := isUppercase_of_mem_outside hx
  have hnew := (mem_outside.1 hx).2
  refine ⟨x, rest, hdraw, hup, hnew, fun k hk => ?_⟩
  rw [List.mem_singleton.1 hk]
  exact ⟨fun heq => hnew (heq ▸ h.symbol),
    fun body hbody hmem => hnew (h.mentioned x ⟨body, hbody, hmem⟩ hup)⟩

/-! ## Left recursion -/

/-- What can take the place of a non-terminal in every system can take its place where it stands
alone. -/
theorem NonTerminal.ReplaceableBy.leastMeaning_eq {fresh : List Symbol} {ns : List NonTerminal}
    (h : n.ReplaceableBy fresh ns) (hfresh : ∀ x ∈ fresh, n.Admits used x)
    (given : Symbol → Language) :
    leastMeaning ns given n.symbol = leastMeaning [n] given n.symbol := by
  have hnew : n.symbol ∉ fresh :=
    fun hmem => ((hfresh _ hmem).unused n (List.mem_singleton_self n)).1 rfl
  have heq := h [] [] given (by simp) (fun x hx => (hfresh x hx).unused) n.symbol hnew
  simpa using heq.symm

/-- Removing the left recursion of a non-terminal other than epsilon, some alternative of which does
not begin with it, gives a result under its name and at most one symbol that was not used. Whatever
languages the other symbols have, the least language that its alternatives allow is the least one
that those of the result allow. -/
theorem leastMeaning_of_recursionPlan (hs : n.symbol ≠ epsilon)
    (hbase : ∃ body ∈ n.alternatives, body.head? ≠ some n.symbol) (hused : n.CoveredBy used)
    (hsupply : Supply.outside used ≠ []) :
    ∃ r fresh, (n.recursionPlan.carryOut n.symbol (Supply.outside used)).1 = .ok r ∧
      r.nonTerminals.map NonTerminal.symbol = n.symbol :: fresh ∧
      (∀ x ∈ fresh, isUppercase x = true ∧ x ∉ used) ∧
      ∀ given, leastMeaning r.nonTerminals given n.symbol = leastMeaning [n] given n.symbol := by
  have hnone : ∀ x ∈ ([] : List Symbol), n.Admits used x := fun x hx => absurd hx List.not_mem_nil
  cases hcase : n.recursion with
  | absent =>
    rw [NonTerminal.recursionPlan, hcase]
    exact ⟨.single n, [], rfl, rfl, by simp, fun given => rfl⟩
  | baseless =>
    -- an alternative that begins otherwise is a base
    obtain ⟨body, hbody, hhead⟩ := hbase
    have hself := startsWithSelf_of_recursion_baseless hcase hbody
    exact absurd (of_decide_eq_true hself) hhead
  | idle k dropped =>
    have hreplaceable := replaceableBy_of_recursion_idle hcase hs
    rw [NonTerminal.recursionPlan, hcase]
    refine ⟨.single k, [], rfl, ?_, by simp, hreplaceable.leastMeaning_eq hnone⟩
    rw [(eq_of_recursion_idle hcase).1, Rewrite.nonTerminals, List.map_singleton,
      NonTerminal.symbol_ofAlternatives]
  | proper u =>
    obtain ⟨x, rest, hdraw, hx⟩ := hused.exists_draw hsupply
    have hne := ne_epsilon_of_isUppercase hx.uppercase
    have hreplaceable := replaceableBy_of_recursion_proper hcase hs hne
    have hadmits : ∀ y ∈ [x], n.Admits used y := by simpa using hx
    rw [NonTerminal.recursionPlan, hcase, hdraw]
    refine ⟨.split (u.head x) (u.tail x), [x], rfl, ?_, ?_, hreplaceable.leastMeaning_eq hadmits⟩
    · rw [Rewrite.nonTerminals, List.map_cons, List.map_singleton, symbol_head_unrolling hcase,
        symbol_tail_unrolling]
    · exact fun y hy => ⟨(hadmits y hy).uppercase, (hadmits y hy).notMem⟩

/-- The first alternative of `A -> A | A&aA | &Ab | b&` is idle, the second one repeats the name, and
the third one is a base that is left recursive behind an epsilon. One more base is empty. -/
theorem leastMeaning_of_recursionPlan_of_inner_recursion :
    ∃ n head tail : NonTerminal,
      n = ⟨'A', [['A'], ['A', '&', 'a', 'A'], ['&', 'A', 'b'], ['b', '&'], []]⟩ ∧
      (n.recursionPlan.carryOut n.symbol (Supply.outside ['A'])).1 = .ok (.split head tail) ∧
      head = ⟨'A', [['A', 'b', 'B'], ['b', 'B'], ['B']]⟩ ∧
      tail = ⟨'B', [['a', 'A', 'B'], ['&']]⟩ ∧
      ∀ given, leastMeaning [head, tail] given 'A' = leastMeaning [n] given 'A' := by
  have hcarry : ((NonTerminal.mk 'A' [['A'], ['A', '&', 'a', 'A'], ['&', 'A', 'b'], ['b', '&'],
      []]).recursionPlan.carryOut 'A' (Supply.outside ['A'])).1 =
        .ok (.split ⟨'A', [['A', 'b', 'B'], ['b', 'B'], ['B']]⟩
          ⟨'B', [['a', 'A', 'B'], ['&']]⟩) := rfl
  obtain ⟨r, fresh, hr, -, -, hmeaning⟩ := leastMeaning_of_recursionPlan
    (n := ⟨'A', [['A'], ['A', '&', 'a', 'A'], ['&', 'A', 'b'], ['b', '&'], []]⟩) (by decide)
    ⟨['b', '&'], by decide, by decide⟩ (by decide +kernel : NonTerminal.CoveredBy _ ['A'])
    (by decide +kernel : Supply.outside ['A'] ≠ [])
  obtain rfl := Except.ok.inj (hr.symm.trans hcarry)
  exact ⟨_, _, _, rfl, hcarry, rfl, rfl, hmeaning⟩

end LL1
