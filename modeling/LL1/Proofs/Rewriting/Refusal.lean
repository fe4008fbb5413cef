/-
# Refusals are justified

A rewriting is refused when it meets a non-terminal whose alternatives all begin with itself. By then
the non-terminal may have been factored and unrolled several times, but it bears the name it was
declared under: what takes the place of a non-terminal is left recursive only under the old name, so
no fresh non-terminal ever is. As every step keeps what the declared symbols generate, the verdict on
the rewritten non-terminal is a verdict on the declared one.
-/
import LL1.Proofs.Rewriting.Weight.Factoring
import LL1.Proofs.Rewriting.Weight.Unrolling

namespace LL1

/-! ## Where left recursion comes from -/

section Recursive

variable {n k : NonTerminal} {x : Symbol}

/-- The first part of a division is left recursive only if what is divided is, and the second part is
not. -/
theorem isLeftRecursive_of_divide {d : Division} (hn : n.alternatives.Nodup)
    (h : n.plan = .divide d) (hx : x ≠ epsilon) (hunused : ∀ body ∈ n.alternatives, x ∉ body) :
    ((d.head x).isLeftRecursive = true → n.isLeftRecursive = true) ∧
      (d.tail x).isLeftRecursive = false := by
  rcases divide_cases h with ⟨f, hf, rfl⟩ | ⟨u, hu, rfl⟩
  · have hcuts := cuts_of_factoring? hn hf
    exact ⟨hcuts.isLeftRecursive_of_head, hcuts.isLeftRecursive_tail hx hunused⟩
  · exact ⟨fun _ => isLeftRecursive_of_recursion hu, isLeftRecursive_tail_unrolling hu hx hunused⟩

/-- What takes the place of a non-terminal is left recursive only if the non-terminal was, and only
under its name. -/
theorem NonTerminal.RewritesTo.isLeftRecursive {fresh : List Symbol} {ns : List NonTerminal}
    (h : n.RewritesTo fresh ns) (hn : n.alternatives.Nodup)
    (hfresh : ∀ x ∈ fresh, x ≠ epsilon ∧ ∀ body ∈ n.alternatives, x ∉ body) (hk : k ∈ ns)
    (hrecursive : k.isLeftRecursive = true) :
    k.symbol = n.symbol ∧ n.isLeftRecursive = true := by
  have hsymbols := h.symbols
  cases h with
  | settle h =>
    -- a settled non-terminal is not left recursive at all
    rw [List.mem_singleton.1 hk, (settled_of_settle h).notRecursive] at hrecursive
    cases hrecursive
  | @divide d x h =>
    obtain ⟨hx, hunused⟩ := hfresh x List.mem_cons_self
    obtain ⟨hhead, htail⟩ := isLeftRecursive_of_divide hn h hx hunused
    obtain rfl | rfl := by simpa using hk
    · exact ⟨(List.cons.inj hsymbols).1, hhead hrecursive⟩
    · rw [htail] at hrecursive
      cases hrecursive

/-- A non-terminal that is refused is left recursive. -/
theorem isLeftRecursive_of_refuse (h : n.plan = .refuse) : n.isLeftRecursive = true := by
  rw [← Bool.not_eq_false, ← NonTerminal.recursion_eq_absent_iff, refuse_cases h]
  exact Recursion.noConfusion

end Recursive

namespace Grammar

variable {g : Grammar} {s : Symbol}

/-! ## Non-terminals without a base -/

/-- A symbol whose right-hand sides all begin with the symbol itself derives no terminal string. -/
theorem not_productive_of_forall_returns (hg : g.WellFormed) (hs : g.declares s = true)
    (h : ∀ r ∈ g.rules, r.head = s → ∃ rest, r.body = s :: rest) : ¬ g.Productive s := by
  have hne := hg.ne_epsilon_of_declares hs
  -- every form that is derived begins with the symbol
  have key : ∀ v, g.Derives [s] v → ∃ rest, v = s :: rest := by
    intro v hv
    induction hv with
    | refl => exact ⟨[], rfl⟩
    | snoc _ last ih =>
      obtain ⟨rest, rfl⟩ := ih
      obtain ⟨before, after, r, hr, hform, rfl⟩ := last.exists_rule
      cases before with
      | nil =>
        obtain ⟨hhead, rfl⟩ := List.cons.inj hform
        obtain ⟨rest', hbody⟩ := h r hr hhead.symm
        exact ⟨withoutEpsilon rest' ++ rest, by simp [hbody, withoutEpsilon_cons_of_ne hne]⟩
      | cons u before =>
        obtain ⟨rfl, -⟩ := List.cons.inj hform
        exact ⟨before ++ withoutEpsilon r.body ++ after, by simp⟩
  rintro ⟨w, hw, hterminal⟩
  obtain ⟨rest, rfl⟩ := key w hw
  rw [hg.declares_eq_false (hterminal s List.mem_cons_self).1] at hs
  cases hs

/-- A non-terminal of a well-formed grammar that is refused derives no terminal string. -/
theorem not_productive_of_refuse (hg : g.WellFormed) {n : NonTerminal} (hn : n ∈ g.nonTerminals)
    (h : n.plan = .refuse) : ¬ g.Productive n.symbol := by
  refine not_productive_of_forall_returns hg (declares_iff.2 (List.mem_map_of_mem hn)) ?_
  rintro ⟨head, body⟩ hr rfl
  have hbody := (hg.mem_alternatives_iff hn).2 hr
  exact startsWithSelf_iff.1 (startsWithSelf_of_recursion_baseless (refuse_cases h) hbody)

/-! ## Runs that are refused -/

/-- What holds at every moment of a rewriting: the language is kept, and whatever is left recursive
was declared from the start. -/
structure RecursiveAsDeclared (g : Grammar) (supply : Supply) (ns : List NonTerminal) : Prop where
  /-- The language is kept. -/
  rewritten : g.RewrittenTo supply ns
  /-- What is left recursive bears a name that was declared. -/
  declared : ∀ k ∈ ns, k.isLeftRecursive = true → k.symbol ∈ g.symbols

/-- A step keeps it all. -/
theorem RecursiveAsDeclared.step {fresh supply : Supply} {n : NonTerminal}
    {before ns after : List NonTerminal} (hn : n.RewritesTo fresh ns)
    (h : g.RecursiveAsDeclared (fresh ++ supply) (before ++ n :: after)) :
    g.RecursiveAsDeclared supply (before ++ ns ++ after) := by
  refine ⟨h.rewritten.step hn, fun k hk hrecursive => ?_⟩
  simp only [List.mem_append] at hk
  rcases hk with (hk | hk) | hk
  · exact h.declared k (by simp [hk]) hrecursive
  · have hfresh : ∀ x ∈ fresh, x ≠ epsilon ∧ ∀ body ∈ n.alternatives, x ∉ body := by
      intro x hx
      obtain ⟨hne, hunused⟩ := h.rewritten.unused_of_mem (List.mem_append_left supply hx)
      exact ⟨hne, (hunused n (by simp)).2⟩
    have hnodup := (h.rewritten.wellFormed.each n (by simp)).nodup
    obtain ⟨hsymbol, hold⟩ := hn.isLeftRecursive hnodup hfresh hk hrecursive
    rw [hsymbol]
    exact h.declared n (by simp) hold
  · exact h.declared k (by simp [hk]) hrecursive

/-- If the rewriting of a well-formed grammar is refused for want of a base then the symbol is declared
in the grammar and derives no terminal string. -/
theorem not_productive_of_eliminate (hg : g.WellFormed) (h : g.eliminate = .error (.noBaseCase s)) :
    s ∈ g.symbols ∧ ¬ g.Productive s := by
  have hstart : g.RecursiveAsDeclared g.supply g.nonTerminals :=
    ⟨rewrittenTo_self hg, fun k hk _ => List.mem_map_of_mem hk⟩
  obtain ⟨supply, before, n, after, hI, hplan, rfl⟩ := invariant_of_refusal
    (I := g.RecursiveAsDeclared) (fun _ _ _ _ _ _ hn hI => hI.step hn) []
    (failure_of_eliminate h) hstart
  have hn : n ∈ before ++ n :: after := by simp
  have hs := hI.declared n hn (isLeftRecursive_of_refuse hplan)
  refine ⟨hs, fun ⟨w, hw⟩ => ?_⟩
  exact not_productive_of_refuse hI.rewritten.wellFormed hn hplan
    ⟨w, (hI.rewritten.generates _ hs w).2 hw⟩

end Grammar

end LL1
