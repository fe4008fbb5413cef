/-
# Solved workspaces

After solving, the FIRST sets of a workspace are those of its grammar, its FOLLOW sets are right and
closed, and what it remembers about nullability is right. Questions keep all of this, so FIRST and FOLLOW
are exact, whatever was asked before.
-/
import LL1.Proofs.Analysis.Follow
import LL1.Proofs.Analysis.Prediction
import LL1.Proofs.Analysis.Sentences
import LL1.Proofs.Workspace.Reached

namespace LL1

namespace Workspace

/-! ## The invariant -/

/-- What solving establishes and questions keep. -/
structure Solved (w : Workspace) : Prop where
  /-- The grammar is well-formed. -/
  wellFormed : w.grammar.WellFormed
  /-- What is remembered is right. -/
  ready : w.memo.Ready w.grammar
  /-- The FIRST sets are those of the grammar. -/
  first : w.grammar.ExactFirst w.first
  /-- The FOLLOW sets are right and closed. -/
  follow : w.grammar.FollowClosed w.follow

/-- Solving a workspace with a well-formed grammar solves it. -/
theorem solved_solve {w : Workspace} (hg : w.grammar.WellFormed) : w.solve.Solved := by
  have hmemo : w.freshMemo.Ready w.grammar :=
    Grammar.ready_learnNullable hg (Memo.ready_empty w.grammar)
  obtain ⟨hready, hfirst⟩ := Grammar.exactFirst_firstSets hg hmemo
  obtain ⟨hready', hfollow⟩ := Grammar.followClosed_followSets hg hfirst hready
  exact ⟨hg, hready', hfirst, hfollow⟩

/-- A question leaves what is remembered right, by whatever sets it is answered. -/
theorem Query.ready {w v : Workspace} (hg : w.grammar.WellFormed) (hm : w.memo.Ready w.grammar)
    (hq : w.Query v) : v.memo.Ready w.grammar := by
  cases hq with
  | nullableHead hn => exact (Grammar.answers_nullableHead hg hn hm).ready
  | nullableRule hr => exact (Grammar.answers_nullableRule hg hr hm).ready
  | nullableWord v => exact (Grammar.answers_nullableWord hg v hm).ready
  | firstOfWord v => exact Grammar.ready_firstOfWord hg w.first v hm
  | predict => exact Grammar.ready_predict hg w.first w.follow hm
  | keepTable => exact Grammar.ready_predict hg w.first w.follow hm

/-- A solved workspace stays solved when a question is asked. -/
theorem Solved.query {w v : Workspace} (h : w.Solved) (hq : w.Query v) : v.Solved := by
  obtain ⟨hgrammar, hfirst, hfollow⟩ := hq.same
  have hready : v.memo.Ready w.grammar := hq.ready h.wellFormed h.ready
  refine ⟨?_, ?_, ?_, ?_⟩
  · rw [hgrammar]
    exact h.wellFormed
  · rw [hgrammar]
    exact hready
  · rw [hgrammar, hfirst]
    exact h.first
  · rw [hgrammar, hfollow]
    exact h.follow

/-- A solved workspace stays solved while questions are asked. -/
theorem Solved.queried {w v : Workspace} (h : w.Solved) (hq : w.Queried v) : v.Solved := by
  induction hq with
  | refl => exact h
  | snoc _ last ih => exact ih.query last

/-! ## FIRST sets -/

/-- After solving, and whatever is asked then, the FIRST set of a non-terminal holds the terminals that
can begin a form derived from it, and epsilon if it derives the empty word. FIRST of any word holds
the symbols that are not declared and can begin a form derived from the word, and epsilon if all of
the word derives the empty word. If every non-terminal is productive, FIRST of a non-terminal holds
the first symbols of its sentences, with epsilon for the empty one. -/
theorem first_exact {w u : Workspace} (hw : w.Reached) (hu : w.solve.Queried u) :
    (∀ a ∈ u.grammar.symbols, ∀ t, t ∈ u.first.get a ↔
      isTerminal t = true ∧ t ≠ epsilon ∧ (∃ rest, u.grammar.Derives [a] (t :: rest)) ∨
        t = epsilon ∧ u.grammar.Derives [a] []) ∧
    (∀ v t, t ∈ (u.firstOfWord v).1 ↔
      t ≠ epsilon ∧ u.grammar.declares t = false ∧ u.grammar.Begins v t ∨
        t = epsilon ∧ u.grammar.Vanishes v) ∧
    ((∀ s ∈ u.grammar.symbols, u.grammar.Productive s) → ∀ a ∈ u.grammar.symbols, ∀ t,
      t ∈ u.first.get a ↔ (∃ rest, u.grammar.Generates a (t :: rest)) ∨
        t = epsilon ∧ u.grammar.Generates a []) := by
  have h := (solved_solve hw.wellFormed).queried hu
  have hfirst : ∀ a ∈ u.grammar.symbols, ∀ t, t ∈ u.first.get a ↔
      isTerminal t = true ∧ t ≠ epsilon ∧ (∃ rest, u.grammar.Derives [a] (t :: rest)) ∨
        t = epsilon ∧ u.grammar.Derives [a] [] := by
    intro a ha t
    rw [h.first.mem_iff a ha, Grammar.inFirst_singleton_iff h.wellFormed (Grammar.declares_iff.2 ha)]
  refine ⟨hfirst, fun v t => Grammar.mem_firstOfWord_iff h.wellFormed h.first v h.ready, ?_⟩
  intro hprod a ha t
  have hempty : u.grammar.Generates a [] ↔ u.grammar.Derives [a] [] :=
    ⟨And.left, fun hd => ⟨hd, fun s hs => absurd hs List.not_mem_nil⟩⟩
  rw [hfirst a ha,
    Grammar.exists_generates_cons_iff h.wellFormed hprod (Grammar.declares_iff.2 ha), hempty]

/-- `S->Sa | &`, solved and asked about the word `SaS`. Its non-terminal is productive. -/
theorem first_exact_of_left_recursive :
    ∃ w : Workspace, w.Reached ∧ w.grammar = ⟨[⟨'S', [['S', 'a'], ['&']]⟩]⟩ ∧
      (∀ t, t ∈ w.solve.first.get 'S' ↔
        isTerminal t = true ∧ t ≠ epsilon ∧ (∃ rest, w.grammar.Derives ['S'] (t :: rest)) ∨
          t = epsilon ∧ w.grammar.Derives ['S'] []) ∧
      (∀ v t, t ∈ ((w.solve.firstOfWord ['S', 'a', 'S']).2.firstOfWord v).1 ↔
        t ≠ epsilon ∧ w.grammar.declares t = false ∧ w.grammar.Begins v t ∨
          t = epsilon ∧ w.grammar.Vanishes v) ∧
      ∀ t, t ∈ w.solve.first.get 'S' ↔ (∃ rest, w.grammar.Generates 'S' (t :: rest)) ∨
        t = epsilon ∧ w.grammar.Generates 'S' [] := by
  have hload : Grammar.ofLines ["S->Sa".toList, "S->&".toList] =
      .ok ⟨[⟨'S', [['S', 'a'], ['&']]⟩]⟩ := rfl
  have hreached := Reached.lines hload
  have hprod : ∀ s ∈ (Grammar.mk [⟨'S', [['S', 'a'], ['&']]⟩]).symbols,
      (Grammar.mk [⟨'S', [['S', 'a'], ['&']]⟩]).Productive s := by
    intro s hs
    obtain rfl : s = 'S' := List.mem_singleton.1 hs
    have hrule : (⟨'S', ['&']⟩ : Rule) ∈ (Grammar.mk [⟨'S', [['S', 'a'], ['&']]⟩]).rules :=
      List.mem_cons_of_mem _ List.mem_cons_self
    exact ⟨[], Grammar.derives_of_mem_rules hrule, fun s hs => absurd hs List.not_mem_nil⟩
  refine ⟨_, hreached, rfl, ?_, ?_, ?_⟩
  · exact (first_exact hreached .refl).1 'S' List.mem_cons_self
  · exact (first_exact hreached (.snoc .refl (.firstOfWord ['S', 'a', 'S']))).2.1
  · exact (first_exact hreached .refl).2.2 hprod 'S' List.mem_cons_self

end Workspace

/-! ## What follows in forms -/

namespace Grammar

variable {g : Grammar} {s t : Symbol}

/-- FOLLOW of a symbol, in terms of derivations. -/
theorem inFollow_iff (hg : g.WellFormed) :
    g.InFollow s t ↔ isTerminal t = true ∧ t ≠ endMarker ∧ g.Follows s t ∨
      t = endMarker ∧ g.Ends s := by
  constructor
  · rintro (⟨hne, hd, a, ha, before, after, hform⟩ | hends)
    · -- what stands in a form and is not declared is a terminal
      have hsymbols := symbols_of_derives hg (declares_iff.2 ha) hform t (by simp)
      have ht : isTerminal t = true :=
        hsymbols.2.resolve_left fun hdeclared => by rw [hd] at hdeclared; cases hdeclared
      exact Or.inl ⟨ht, hne, a, ha, before, after, hform⟩
    · exact Or.inr hends
  · rintro (⟨ht, hne, hfollows⟩ | hends)
    · exact Or.inl ⟨hne, hg.declares_eq_false ht, hfollows⟩
    · exact Or.inr hends

/-- Epsilon follows nothing. -/
theorem not_inFollow_epsilon (hg : g.WellFormed) : ¬ g.InFollow s epsilon := by
  intro h
  rcases mem_terminals.1 (mem_terminals_of_inFollow hg h) with heq | ⟨-, hne, -⟩
  · exact absurd heq (by decide)
  · exact hne rfl

end Grammar

namespace Workspace

/-- After solving, and whatever is asked then, the FOLLOW set of a non-terminal holds the terminals that
stand right behind it in some form that a non-terminal derives, and the end marker if it stands at the
end of a form that the start symbol derives. No FOLLOW set holds epsilon. -/
theorem follow_exact {w u : Workspace} (hw : w.Reached) (hu : w.solve.Queried u) :
    (∀ a ∈ u.grammar.symbols, ∀ t, t ∈ u.follow.get a ↔
      isTerminal t = true ∧ t ≠ endMarker ∧ u.grammar.Follows a t ∨
        t = endMarker ∧ u.grammar.Ends a) ∧
    ∀ a, epsilon ∉ u.follow.get a := by
  have h := (solved_solve hw.wellFormed).queried hu
  refine ⟨fun a ha t => ?_, fun a hmem => ?_⟩
  · rw [h.follow.mem_iff h.wellFormed (Grammar.declares_iff.2 ha), Grammar.inFollow_iff h.wellFormed]
  · exact Grammar.not_inFollow_epsilon h.wellFormed (h.follow.sound a epsilon hmem)

/-- `S->SA | &` with `A->a | &` is rewritten, solved and asked about the word `AS`. Both FOLLOW sets go
through trailing symbols that vanish. -/
theorem follow_exact_of_nullable_cycle :
    ∃ w v u : Workspace, w.Reached ∧ w.eliminate = .ok v ∧ v.solve.Queried u ∧
      u.grammar.symbols = ['S', 'B', 'A'] ∧ (u.follow.get 'A').toList = ['a', '$'] ∧
      (∀ t, t ∈ u.follow.get 'A' ↔
        isTerminal t = true ∧ t ≠ endMarker ∧ u.grammar.Follows 'A' t ∨
          t = endMarker ∧ u.grammar.Ends 'A') ∧
      epsilon ∉ u.follow.get 'S' := by
  have hload : Grammar.ofLines
      ["S->SA".toList, "S->&".toList, "A->a".toList, "A->&".toList] =
        .ok ⟨[⟨'S', [['S', 'A'], ['&']]⟩, ⟨'A', [['a'], ['&']]⟩]⟩ := rfl
  have hreached := Reached.lines hload
  have hrun : ((ofGrammar ⟨[⟨'S', [['S', 'A'], ['&']]⟩, ⟨'A', [['a'], ['&']]⟩]⟩).eliminate.toOption.map
      fun v => (v.grammar.symbols, (v.solve.follow.get 'A').toList)) =
        some (['S', 'B', 'A'], ['a', '$']) := by
    decide +kernel
  obtain ⟨v, hv, hresult⟩ := Option.map_eq_some_iff.1 hrun
  obtain ⟨hsymbols, hfollow⟩ := Prod.mk.inj hresult
  have heliminate := Grammar.eq_ok_of_toOption hv
  have hqueried : v.solve.Queried (v.solve.nullableWord ['A', 'S']).2 := .snoc .refl (.nullableWord _)
  obtain ⟨hmem, hepsilon⟩ := follow_exact (hreached.eliminate heliminate) hqueried
  have hdeclared : 'A' ∈ v.grammar.symbols := by
    rw [hsymbols]
    decide
  exact ⟨_, v, _, hreached, heliminate, hqueried, hsymbols, hfollow, hmem 'A' hdeclared, hepsilon 'S'⟩

end Workspace

end LL1
