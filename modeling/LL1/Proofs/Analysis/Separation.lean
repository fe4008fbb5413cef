/-
# Rules that are told apart by one symbol

A symbol calls for a rule if it can begin the right-hand side, or if the right-hand side can vanish and
the symbol can follow the head. The table is filled without conflicts exactly if no symbol calls for
two rules of one non-terminal. In such a grammar a left recursive rule leaves little room for the other
rules of its head: they derive nothing but the empty word, and nothing follows the head.
-/
import LL1.Proofs.Analysis.Follow
import LL1.Proofs.Analysis.Prediction
import LL1.Proofs.Analysis.Sentences

namespace LL1

namespace Grammar

variable {g : Grammar} {f follow : SetFamily} {m : Memo} {c r : Rule} {s t : Symbol} {v w : Word}

/-! ## Separated grammars -/

/-- Whether the symbol calls for the rule: it can begin the right-hand side, or the right-hand side can
vanish and the symbol can follow the head. -/
def CallsFor (g : Grammar) (t : Symbol) (r : Rule) : Prop :=
  t ≠ epsilon ∧ g.InFirst r.body t ∨ g.Vanishes r.body ∧ g.InFollow r.head t

/-- Whether no symbol calls for two rules of one non-terminal. -/
def Separated (g : Grammar) : Prop :=
  ∀ r ∈ g.rules, ∀ q ∈ g.rules, r.head = q.head → ∀ t, g.CallsFor t r → g.CallsFor t q → r = q

/-- A cell is to hold the rules that its terminal calls for. -/
theorem isCandidate_iff (hg : g.WellFormed) (hf : g.FollowClosed follow) {s a : Symbol} {i : Nat} :
    g.IsCandidate follow ⟨s, a, ⟨s, i⟩⟩ ↔
      ∃ body, g.body? ⟨s, i⟩ = some body ∧ g.CallsFor a ⟨s, body⟩ := by
  unfold IsCandidate CallsFor
  rw [and_iff_right rfl]
  refine exists_congr fun body => and_congr_right fun hbody => ?_
  dsimp only
  rw [hf.mem_iff hg (declares_of_mem_rules (mem_rules_of_body? hbody))]

/-- The table is filled without conflicts exactly if the grammar is separated. -/
theorem conflicts_eq_nil_iff_separated (hg : g.WellFormed) (hf : g.ExactFirst f)
    (hfollow : g.FollowClosed follow) (hm : m.Ready g) :
    (g.predict f follow m).prediction.conflicts = [] ↔ g.Separated := by
  have hmem : ∀ c, c ∈ g.allCandidates f follow g.nonTerminals m ↔ g.IsCandidate follow c :=
    fun _ => mem_allCandidates_nonTerminals hg hf hm
  rw [prediction_predict, Prediction.conflicts_eq_nil_iff]
  constructor
  · -- two rules that are called for are both found in one cell
    intro hfound r hr q hq hhead t hcr hcq
    obtain ⟨s, body⟩ := r
    obtain ⟨s', body'⟩ := q
    obtain rfl : s = s' := hhead
    obtain ⟨i, hi⟩ := hg.exists_body? hr
    obtain ⟨j, hj⟩ := hg.exists_body? hq
    have hfind := hfound _ ((hmem _).2 ((isCandidate_iff hg hfollow).2 ⟨body, hi, hcr⟩))
    have hfind' := hfound _ ((hmem _).2 ((isCandidate_iff hg hfollow).2 ⟨body', hj, hcq⟩))
    obtain rfl : i = j := by
      have hid := Option.some.inj (hfind.symm.trans hfind')
      exact congrArg RuleId.index hid
    obtain rfl : body = body' := Option.some.inj (hi.symm.trans hj)
    rfl
  · -- what is found in the cell of a candidate is a rule that the same symbol calls for
    rintro hsep ⟨s, a, ⟨head, i⟩⟩ hc
    obtain ⟨⟨head', j⟩, hid⟩ := Table.exists_find?_of_mem hc
    have hd := Table.mem_cells_of_find? hid
    rw [Prediction.find?_foldl_add_empty, hid]
    rw [hmem] at hc hd
    obtain rfl : head = s := hc.1
    obtain rfl : head' = head := hd.1
    obtain ⟨body, hi, hcr⟩ := (isCandidate_iff hg hfollow).1 hc
    obtain ⟨body', hj, hcq⟩ := (isCandidate_iff hg hfollow).1 hd
    have hrule := hsep _ (mem_rules_of_body? hi) _ (mem_rules_of_body? hj) rfl a hcr hcq
    obtain rfl : body = body' := congrArg Rule.body hrule
    exact congrArg some (hg.eq_of_body? rfl hj hi)

/-! ## Void words -/

/-- Whether the word can vanish and no terminal can begin it. -/
structure Void (g : Grammar) (w : Word) : Prop where
  /-- The word vanishes. -/
  vanishes : g.Vanishes w
  /-- No terminal begins it. -/
  not_inFirst : ∀ t, t ≠ epsilon → ¬ g.InFirst w t

/-- The two parts of a void word are void. -/
theorem void_append (hg : g.WellFormed) : g.Void (v ++ w) ↔ g.Void v ∧ g.Void w := by
  constructor
  · rintro ⟨hvanishes, hfirst⟩
    obtain ⟨hv, hw⟩ := vanishes_append.1 hvanishes
    refine ⟨⟨hv, fun t hne ht => ?_⟩, ⟨hw, fun t hne ht => ?_⟩⟩
    · exact hfirst t hne ((inFirst_append hg hne).2 (Or.inl ht))
    · exact hfirst t hne ((inFirst_append hg hne).2 (Or.inr ⟨hv, ht⟩))
  · rintro ⟨hv, hw⟩
    refine ⟨vanishes_append.2 ⟨hv.vanishes, hw.vanishes⟩, fun t hne ht => ?_⟩
    rcases (inFirst_append hg hne).1 ht with ht | ⟨-, ht⟩
    · exact hv.not_inFirst t hne ht
    · exact hw.not_inFirst t hne ht

/-- Epsilons make no difference to being void. -/
theorem void_withoutEpsilon : g.Void (withoutEpsilon w) ↔ g.Void w :=
  ⟨fun h => ⟨vanishes_withoutEpsilon.1 h.vanishes, fun t hne ht =>
      h.not_inFirst t hne (inFirst_withoutEpsilon.2 ht)⟩,
    fun h => ⟨vanishes_withoutEpsilon.2 h.vanishes, fun t hne ht =>
      h.not_inFirst t hne (inFirst_withoutEpsilon.1 ht)⟩⟩

/-- A word of terminals and productive symbols that no terminal can begin is void. -/
theorem void_of_forall_not_inFirst (hg : g.WellFormed)
    (hw : ∀ s ∈ w, g.Productive s ∨ isTerminal s = true)
    (h : ∀ t, t ≠ epsilon → ¬ g.InFirst w t) : g.Void w := by
  refine ⟨?_, h⟩
  rcases vanishes_or_exists_inFirst hg hw with hvanishes | ⟨t, hne, ht⟩
  · exact hvanishes
  · exact absurd ht (h t hne)

/-- No terminal begins a symbol whose right-hand sides are void words in front of the symbol itself,
and epsilon. -/
theorem not_inFirst_of_self_ending (hg : g.WellFormed) (hs : g.declares s = true)
    (hbody : ∀ r ∈ g.rules, r.head = s → r.body = [epsilon] ∨ ∃ v, g.Void v ∧ r.body = v ++ [s])
    (t : Symbol) (hne : t ≠ epsilon) : ¬ g.InFirst [s] t := by
  intro h
  obtain ⟨-, hd, hbegins⟩ := h.resolve_right fun h => hne h.1
  have hts : t ≠ s := by
    rintro rfl
    rw [hd] at hs
    cases hs
  have hself : t ≠ s ∧ g.Begins [t] t := by
    refine ⟨hts, [], ?_⟩
    rw [withoutEpsilon_cons_of_ne hne]
    exact .refl _
  have hnot : ¬ g.Leads (fun u t => u ≠ s ∧ g.Begins [u] t) [s] t := by
    rw [leads_cons]
    rintro (⟨-, hss, -⟩ | ⟨-, hnil⟩)
    · exact hss rfl
    · exact not_leads_nil hnil
  -- the symbol is not needed to close what begins the others under the rules
  refine hnot (leads_of_begins hself (fun r hr hleads => ?_) hbegins)
  have hhead := hg.ne_epsilon_of_declares (declares_of_mem_rules hr)
  have hrule := begins_of_leads (hleads.mono fun u _ hu => hu.2)
  refine ⟨hhead, fun heq => ?_, begins_of_mem_rules hr hhead hrule⟩
  rcases hbody r hr heq with hstop | ⟨v, hv, hrepeat⟩
  · rw [hstop, leads_cons_epsilon] at hleads
    exact not_leads_nil hleads
  · rw [hrepeat, leads_append] at hleads
    rcases hleads with hleads | ⟨-, hleads⟩
    · exact hv.not_inFirst t hne (Or.inl ⟨hne, hd, begins_of_leads (hleads.mono fun u _ hu => hu.2)⟩)
    · exact hnot hleads

/-! ## Left recursion in separated grammars -/

/-- If a rule of a separated grammar derives a form that begins with its own head, then any other rule
of the head and what stands behind the head are void, and nothing follows the head. -/
theorem Separated.void_of_returns (hg : g.WellFormed)
    (hprod : ∀ s ∈ g.symbols, g.Productive s) (hsep : g.Separated) (hc : c ∈ g.rules)
    (hr : r ∈ g.rules) (hhead : r.head = c.head) (hne : r ≠ c) {rest : Word}
    (hreturns : g.Derives (withoutEpsilon c.body) (c.head :: rest)) :
    g.Void r.body ∧ g.Void rest ∧ ∀ t, ¬ g.InFollow c.head t := by
  have hdeclared := declares_of_mem_rules hc
  have hform : g.Derives [c.head] (c.head :: rest) := (derives_of_mem_rules hc).trans hreturns
  have hrest : withoutEpsilon rest = rest := withoutEpsilon_eq_self fun hmem =>
    epsilon_notMem_of_declares hg hdeclared hform (List.mem_cons_of_mem _ hmem)
  -- whatever the other rule derives, the left recursive one derives in front of the rest
  have hbody : g.Derives (withoutEpsilon c.body) (withoutEpsilon (r.body ++ rest)) := by
    have hother := (derives_of_mem_rules hr).append (.refl rest)
    rw [hhead, List.singleton_append] at hother
    rw [withoutEpsilon_append, hrest]
    exact hreturns.trans hother
  have hnot : ∀ t, g.CallsFor t r → ¬ g.CallsFor t c :=
    fun t htr htc => hne (hsep r hr c hc hhead t htr htc)
  have hvoid : g.Void r.body := by
    refine void_of_forall_not_inFirst hg (hg.productive_of_mem_body hprod hr) fun t ht hfirst => ?_
    refine hnot t (Or.inl ⟨ht, hfirst⟩) (Or.inl ⟨ht, InFirst.of_derives ?_ hbody⟩)
    exact (inFirst_append hg ht).2 (Or.inl hfirst)
  have hvoidRest : g.Void rest := by
    refine void_of_forall_not_inFirst hg (fun s hs => ?_) fun t ht hfirst => ?_
    · exact (symbols_of_derives hg hdeclared hform s (List.mem_cons_of_mem _ hs)).2.imp_left
        fun hd => hprod s (declares_iff.1 hd)
    · -- what begins the rest follows the head, and so it calls for both rules
      have hfollow : g.InFollow c.head t := by
        obtain ⟨-, hd, after, hafter⟩ := hfirst.resolve_right fun h => ht h.1
        rw [hrest] at hafter
        have hwhole : g.Derives [c.head] (c.head :: t :: after) :=
          hform.trans ((Derives.refl [c.head]).append hafter)
        have hmem := mem_terminals_of_derives hg hdeclared hwhole (by simp) hd ht
        exact Or.inl ⟨hmem.2, hd, c.head, declares_iff.1 hdeclared, [], after, hwhole⟩
      refine hnot t (Or.inr ⟨hvoid.vanishes, hhead ▸ hfollow⟩)
        (Or.inl ⟨ht, InFirst.of_derives ?_ hbody⟩)
      exact (inFirst_append hg ht).2 (Or.inr ⟨hvoid.vanishes, hfirst⟩)
  refine ⟨hvoid, hvoidRest, fun t ht => ?_⟩
  refine hnot t (Or.inr ⟨hvoid.vanishes, hhead ▸ ht⟩) (Or.inr ⟨hbody.trans ?_, ht⟩)
  exact vanishes_append.2 ⟨hvoid.vanishes, hvoidRest.vanishes⟩

/-- Something follows every non-terminal that is reachable, if all are productive. -/
theorem exists_inFollow (hg : g.WellFormed) (hprod : ∀ s ∈ g.symbols, g.Productive s)
    (hs : g.Reachable s) : ∃ t, g.InFollow s t := by
  obtain ⟨before, after, hform⟩ := hs
  have hsymbols := symbols_of_derives hg hg.declares_start hform
  obtain ⟨v, hv, hterminal⟩ := exists_terminalString (g := g) (w := after) fun u hu =>
    (hsymbols u (by simp [hu])).imp_right (Or.imp_left fun hd => hprod u (declares_iff.1 hd))
  have hwhole : g.Derives [g.start] (before ++ s :: v) := by
    have hafter := hv.surround (before ++ [s]) []
    simp only [List.append_nil, List.append_assoc, List.singleton_append] at hafter
    exact hform.trans hafter
  cases v with
  | nil => exact ⟨endMarker, Or.inr ⟨rfl, before, hwhole⟩⟩
  | cons t v =>
    obtain ⟨ht, hne⟩ := hterminal t List.mem_cons_self
    have hd := hg.declares_eq_false ht
    have hmem := mem_terminals_of_derives hg hg.declares_start hwhole (by simp) hd hne
    exact ⟨t, Or.inl ⟨hmem.2, hd, g.start, declares_iff.1 hg.declares_start, before, v, hwhole⟩⟩

end Grammar

end LL1
