/-
# Unrolling keeps grammars separated

In a separated grammar of productive non-terminals, left recursion leaves nothing to choose: the bases
and the continuations are void, and nothing follows the non-terminal. So all new right-hand sides are
void, and nothing calls for them.
-/
import LL1.Proofs.Rewriting.Separation.Replacement

namespace LL1

namespace Grammar

variable {g g' : Grammar} {n : NonTerminal} {fresh : List Symbol} {ns : List NonTerminal} {r : Rule}
  {s t x : Symbol} {u : Unrolling}

namespace Replacement

/-- In a separated grammar the bases and the repeats of an unrolling are void, and nothing follows the
non-terminal. -/
theorem void_of_unrolling (h : g.Replacement g' n fresh ns) (hu : n.recursion = .proper u)
    (hsep : g.Separated) :
    (∀ v ∈ u.bases, g.Void v) ∧ (∀ v ∈ u.repeats, g.Void v) ∧ ∀ t, ¬ g.InFollow n.symbol t := by
  have hrule : ∀ body ∈ n.alternatives, ⟨n.symbol, body⟩ ∈ g.rules :=
    fun body hbody => mem_rules.2 ⟨n, h.mem, rfl, hbody⟩
  have hs := h.wellFormed.ne_epsilon_of_declares (declares_iff.2 (List.mem_map_of_mem h.mem))
  -- a base and a left recursive alternative are two rules
  have key : ∀ body ∈ n.baseAlternatives, ∀ rest, n.symbol :: rest ∈ n.alternatives →
      g.Void body ∧ g.Void (withoutEpsilon rest) ∧ ∀ t, ¬ g.InFollow n.symbol t := by
    intro body hbody rest hrest
    obtain ⟨halternative, hbase⟩ := mem_baseAlternatives.1 hbody
    have hne : (⟨n.symbol, body⟩ : Rule) ≠ ⟨n.symbol, n.symbol :: rest⟩ := by
      intro heq
      have hself : n.startsWithSelf body = true := startsWithSelf_iff.2 ⟨rest, congrArg Rule.body heq⟩
      rw [hself] at hbase
      cases hbase
    refine hsep.void_of_returns h.wellFormed h.productive (hrule _ hrest) (hrule _ halternative) rfl
      hne ?_
    rw [withoutEpsilon_cons_of_ne hs]
    exact .refl _
  obtain ⟨base, hbase⟩ := List.exists_mem_of_ne_nil _ (ne_nil_of_recursion hu).1
  obtain ⟨v, hv⟩ := List.exists_mem_of_ne_nil _ (ne_nil_of_recursion hu).2
  obtain ⟨rest, hrest, -⟩ := exists_of_mem_repeats hu hv
  refine ⟨fun v hv => ?_, fun v hv => ?_, (key base hbase rest hrest).2.2⟩
  · rw [eq_unrolling_of_recursion hu] at hv
    obtain ⟨body, hbody, rfl⟩ := List.mem_map.1 hv
    exact void_withoutEpsilon.2 (key body hbody rest hrest).1
  · obtain ⟨rest, hrest, rfl⟩ := exists_of_mem_repeats hu hv
    exact (key base hbase rest hrest).2.1

/-- After an unrolling a rule is an old one of another non-terminal, or its right-hand side is a void
word in front of the fresh symbol, or epsilon. -/
theorem unrolling_cases (h : g.Replacement g' n [x] [u.head x, u.tail x])
    (hu : n.recursion = .proper u) (hsep : g.Separated) (hr : r ∈ g'.rules) :
    r ∈ g.rules ∧ r.head ≠ n.symbol ∨ (r.head = n.symbol ∨ r.head = x) ∧
      (r.body = [epsilon] ∨ ∃ v, g'.Void v ∧ r.body = v ++ [x]) := by
  obtain ⟨hbases, hrepeats, -⟩ := h.void_of_unrolling hu hsep
  have hvoid : ∀ body v, body ∈ n.alternatives → (∀ s ∈ v, s ∈ body) → g.Void v → g'.Void v :=
    fun body v hbody hv hvoid => h.void (r := ⟨n.symbol, body⟩)
      (mem_rules.2 ⟨n, h.mem, rfl, hbody⟩) hv hvoid
  rcases (h.rules r).1 hr with hold | ⟨k, hk, hsymbol, hbody⟩
  · exact Or.inl hold
  · refine Or.inr ?_
    simp only [List.mem_cons, List.not_mem_nil, or_false] at hk
    rcases hk with rfl | rfl
    · rw [symbol_head_unrolling hu] at hsymbol
      obtain ⟨v, hv, hbody⟩ := mem_alternatives_head_unrolling.1 hbody
      obtain ⟨base, hbase, rfl⟩ := exists_of_mem_bases hu hv
      refine ⟨Or.inl hsymbol.symm, Or.inr ⟨_, ?_, hbody⟩⟩
      exact hvoid base _ hbase (fun s hs => (mem_withoutEpsilon.1 hs).1) (hbases _ hv)
    · rw [symbol_tail_unrolling] at hsymbol
      refine ⟨Or.inr hsymbol.symm, ?_⟩
      rcases mem_alternatives_tail_unrolling.1 hbody with ⟨v, hv, hbody⟩ | hbody
      · obtain ⟨rest, hrest, rfl⟩ := exists_of_mem_repeats hu hv
        refine Or.inr ⟨_, hvoid _ _ hrest (fun s hs => ?_) (hrepeats _ hv), hbody⟩
        exact List.mem_cons_of_mem _ (mem_withoutEpsilon.1 hs).1
      · exact Or.inl hbody

/-- The fresh symbol of an unrolling is void, if the grammar was separated. -/
theorem void_fresh_of_unrolling (h : g.Replacement g' n [x] [u.head x, u.tail x])
    (hu : n.recursion = .proper u) (hsep : g.Separated) : g'.Void [x] := by
  have hx := h.notMem x List.mem_cons_self
  have hstop : (⟨x, [epsilon]⟩ : Rule) ∈ g'.rules :=
    (h.rules _).2 (Or.inr ⟨u.tail x, by simp, symbol_tail_unrolling u x,
      mem_alternatives_tail_unrolling.2 (Or.inr rfl)⟩)
  refine ⟨(vanishes_singleton_iff h.fresh_ne_epsilon).2 ⟨_, hstop, rfl, vanishes_epsilon⟩, ?_⟩
  refine not_inFirst_of_self_ending h.wellFormed' (declares_of_mem_rules hstop) fun r hr hhead => ?_
  rcases h.unrolling_cases hu hsep hr with ⟨hold, -⟩ | ⟨-, hbody⟩
  · exact absurd (declares_iff.1 (declares_of_mem_rules hold)) (hhead ▸ hx)
  · exact hbody

/-- After an unrolling a rule is an old one of another non-terminal, or its right-hand side is void. -/
theorem void_body_of_unrolling (h : g.Replacement g' n [x] [u.head x, u.tail x])
    (hu : n.recursion = .proper u) (hsep : g.Separated) (hr : r ∈ g'.rules) :
    r ∈ g.rules ∧ r.head ≠ n.symbol ∨ (r.head = n.symbol ∨ r.head = x) ∧ g'.Void r.body := by
  rcases h.unrolling_cases hu hsep hr with hold | ⟨hhead, hbody | ⟨v, hv, hbody⟩⟩
  · exact Or.inl hold
  · rw [hbody]
    refine Or.inr ⟨hhead, vanishes_epsilon, fun t hne ht => ?_⟩
    exact hne ((inFirst_iff_of_isTerminal h.wellFormed' isTerminal_epsilon hne).1 ht)
  · rw [hbody]
    have hfresh := h.void_fresh_of_unrolling hu hsep
    exact Or.inr ⟨hhead, (void_append h.wellFormed').2 ⟨hv, hfresh⟩⟩

/-- Nothing followed the heads of the new rules before. -/
theorem not_inFollow_formerName (h : g.Replacement g' n [x] ns) (hu : n.recursion = .proper u)
    (hsep : g.Separated) (hs : s = n.symbol ∨ s = x) : ¬ g.InFollow (formerName n x s) t := by
  have hnot := (h.void_of_unrolling hu hsep).2.2 t
  rcases hs with rfl | rfl
  · rwa [h.formerName_of_declares h.declares_symbol]
  · rwa [formerName_fresh]

/-- What follows a symbol after an unrolling followed it before. -/
theorem inFollow_of_unrolling (h : g.Replacement g' n [x] [u.head x, u.tail x])
    (hu : n.recursion = .proper u) (hsep : g.Separated) (hs : g'.declares s = true)
    (ht : g'.InFollow s t) : g.InFollow (formerName n x s) t := by
  -- the new right-hand sides are void, so nothing comes to follow anything through them
  refine h.inFollow_old (formerName n x) (fun s => h.formerName_of_declares) ?_ ?_ hs ht
  · intro r hr hnew pre s rest hbody _ t hne hfirst
    obtain ⟨-, hvoid⟩ := (h.void_body_of_unrolling hu hsep hr).resolve_left fun hold => hnew hold.1
    rw [hbody, ← List.singleton_append, ← List.append_assoc, void_append h.wellFormed'] at hvoid
    exact absurd hfirst (hvoid.2.not_inFirst t hne)
  · intro r hr hnew pre s rest _ _ _ t ht
    obtain ⟨hhead, -⟩ := (h.void_body_of_unrolling hu hsep hr).resolve_left fun hold => hnew hold.1
    exact absurd ht (h.not_inFollow_formerName hu hsep hhead)

/-- Nothing calls for the new rules. -/
theorem not_callsFor_of_unrolling (h : g.Replacement g' n [x] [u.head x, u.tail x])
    (hu : n.recursion = .proper u) (hsep : g.Separated) (hr : r ∈ g'.rules)
    (hhead : r.head = n.symbol ∨ r.head = x) (hvoid : g'.Void r.body) : ¬ g'.CallsFor t r := by
  rintro (⟨hne, hfirst⟩ | ⟨-, ht⟩)
  · exact hvoid.not_inFirst t hne hfirst
  · exact h.not_inFollow_formerName hu hsep hhead
      (h.inFollow_of_unrolling hu hsep (declares_of_mem_rules hr) ht)

/-- A separated grammar stays separated when a non-terminal is unrolled. -/
theorem separated_of_unrolling (h : g.Replacement g' n [x] [u.head x, u.tail x])
    (hu : n.recursion = .proper u) (hsep : g.Separated) : g'.Separated := by
  have hold : ∀ {r : Rule} {t : Symbol}, r ∈ g.rules → g'.CallsFor t r → g.CallsFor t r :=
    h.callsFor_old fun s t => h.inFollow_of_unrolling hu hsep
  intro r hr q hq hhead t hcr hcq
  rcases h.void_body_of_unrolling hu hsep hr with ⟨hr', -⟩ | ⟨hrhead, hvoid⟩
  · rcases h.void_body_of_unrolling hu hsep hq with ⟨hq', -⟩ | ⟨hqhead, hvoid⟩
    · exact hsep r hr' q hq' hhead t (hold hr' hcr) (hold hq' hcq)
    · exact absurd hcq (h.not_callsFor_of_unrolling hu hsep hq hqhead hvoid)
  · exact absurd hcr (h.not_callsFor_of_unrolling hu hsep hr hrhead hvoid)

end Replacement

end Grammar

end LL1
