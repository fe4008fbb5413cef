/-
# Factoring keeps grammars separated

The fresh symbol of a factoring is followed by what followed the non-terminal that was factored. The
stem with the fresh symbol behind it is called for by what called for the members of the group, and so
is an ending if there are two of them, since the stem vanishes then.
-/
import LL1.Proofs.Rewriting.Separation.Replacement

namespace LL1

namespace Grammar

variable {g g' : Grammar} {n : NonTerminal} {fresh : List Symbol} {ns : List NonTerminal} {r : Rule}
  {s t x : Symbol} {w e : Word} {f : Factoring}

/-! ## Endings -/

/-- Spelling the empty word with an epsilon does not change FIRST. -/
theorem inFirst_spelled : g.InFirst (Factoring.spelled w) t ↔ g.InFirst w t := by
  rw [← inFirst_withoutEpsilon, withoutEpsilon_spelled, inFirst_withoutEpsilon]

/-- Spelling the empty word with an epsilon makes no difference to vanishing. -/
theorem vanishes_spelled : g.Vanishes (Factoring.spelled w) ↔ g.Vanishes w := by
  rw [← vanishes_withoutEpsilon, withoutEpsilon_spelled, vanishes_withoutEpsilon]

namespace Replacement

/-- The stem with an ending is a rule of the non-terminal that is factored. -/
theorem mem_rules_of_ending (h : g.Replacement g' n fresh ns) (hf : n.factoring? = some f)
    (he : e ∈ f.endings) : ⟨n.symbol, f.stem ++ e⟩ ∈ g.rules :=
  mem_rules.2 ⟨n, h.mem, rfl,
    (mem_alternatives_iff_of_factoring? hf).2 (Or.inr (Or.inl ⟨e, he, rfl⟩))⟩

/-- After a factoring a rule is an old one outside the group, or the stem with the fresh symbol, or
an ending. -/
theorem factoring_cases (h : g.Replacement g' n [x] [f.head x, f.tail x])
    (hf : n.factoring? = some f) (hr : r ∈ g'.rules) :
    r ∈ g.rules ∧ (r.head = n.symbol → ∀ e ∈ f.endings, r.body ≠ f.stem ++ e) ∨
      r = ⟨n.symbol, f.stem ++ [x]⟩ ∨ ∃ e ∈ f.endings, r = ⟨x, Factoring.spelled e⟩ := by
  have hnodup := (h.wellFormed.each n h.mem).nodup
  have houtside : r.head = n.symbol → r.body ∈ f.before ∨ r.body ∈ f.after →
      r ∈ g.rules ∧ (r.head = n.symbol → ∀ e ∈ f.endings, r.body ≠ f.stem ++ e) := by
    intro hhead hbody
    refine ⟨mem_rules.2 ⟨n, h.mem, hhead.symm, (mem_alternatives_iff_of_factoring? hf).2 ?_⟩,
      fun _ e he heq => ?_⟩
    · exact hbody.imp_right Or.inr
    · rw [heq] at hbody
      exact hbody.elim (notMem_of_ending hnodup hf he).1 (notMem_of_ending hnodup hf he).2
  rcases (h.rules r).1 hr with ⟨hold, hne⟩ | ⟨k, hk, hsymbol, hbody⟩
  · exact Or.inl ⟨hold, fun heq => absurd heq hne⟩
  · simp only [List.mem_cons, List.not_mem_nil, or_false] at hk
    rcases hk with rfl | rfl
    · rw [symbol_head_factoring hf] at hsymbol
      rcases mem_alternatives_head_factoring.1 hbody with hb | hb | hb
      · exact Or.inl (houtside hsymbol.symm (Or.inl hb))
      · refine Or.inr (Or.inl ?_)
        rw [hsymbol, ← hb]
      · exact Or.inl (houtside hsymbol.symm (Or.inr hb))
    · rw [symbol_tail_factoring] at hsymbol
      obtain ⟨e, he, hbody⟩ := mem_alternatives_tail_factoring.1 hbody
      refine Or.inr (Or.inr ⟨e, he, ?_⟩)
      rw [hsymbol, ← hbody]

/-- The right-hand sides of the fresh symbol are the endings. -/
theorem exists_ending_of_head (h : g.Replacement g' n [x] [f.head x, f.tail x])
    (hf : n.factoring? = some f) (hr : r ∈ g'.rules) (hhead : r.head = x) :
    ∃ e ∈ f.endings, r.body = Factoring.spelled e := by
  have hx := h.notMem x List.mem_cons_self
  rcases h.factoring_cases hf hr with ⟨hold, -⟩ | rfl | ⟨e, he, rfl⟩
  · exact absurd (declares_iff.1 (declares_of_mem_rules hold)) (hhead ▸ hx)
  · exact absurd (List.mem_map_of_mem h.mem) (hhead ▸ hx)
  · exact ⟨e, he, rfl⟩

/-- What begins a part of the stem with the fresh symbol behind it begins this part with an ending
behind it. -/
theorem exists_ending_inFirst (h : g.Replacement g' n [x] [f.head x, f.tail x])
    (hf : n.factoring? = some f) (hw : ∀ s ∈ w, s ∈ f.stem) (hne : t ≠ epsilon)
    (ht : g'.InFirst (w ++ [x]) t) : ∃ e ∈ f.endings, g.InFirst (w ++ e) t := by
  have hx : g'.declares x = true := declares_iff.2 (h.declared' x List.mem_cons_self)
  have hparts : ∀ e ∈ f.endings, ∀ t, t ≠ epsilon →
      (g'.InFirst w t ∨ g'.Vanishes w ∧ g'.InFirst e t) → g.InFirst (w ++ e) t := by
    intro e he t hne ht
    rw [← inFirst_append h.wellFormed' hne] at ht
    refine (h.inFirst_iff (h.mem_rules_of_ending hf he) (fun s hs => ?_) hne).1 ht
    exact List.mem_append.2 ((List.mem_append.1 hs).imp_left (hw s))
  rcases (inFirst_append h.wellFormed' hne).1 ht with ht | ⟨hvanishes, ht⟩
  · obtain ⟨e, he⟩ := List.exists_mem_of_ne_nil _ (endings_ne_nil_of_factoring? hf)
    exact ⟨e, he, hparts e he t hne (Or.inl ht)⟩
  · obtain ⟨r, hr, hhead, hbody⟩ := exists_rule_of_inFirst h.wellFormed' hx ht
    obtain ⟨e, he, heq⟩ := h.exists_ending_of_head hf hr hhead
    rw [heq, inFirst_spelled] at hbody
    exact ⟨e, he, hparts e he t hne (Or.inr ⟨hvanishes, hbody⟩)⟩

/-- If a part of the stem with the fresh symbol behind it vanishes, so does this part with an ending
behind it. -/
theorem exists_ending_vanishes (h : g.Replacement g' n [x] [f.head x, f.tail x])
    (hf : n.factoring? = some f) (hw : ∀ s ∈ w, s ∈ f.stem)
    (hvanishes : g'.Vanishes (w ++ [x])) : ∃ e ∈ f.endings, g.Vanishes (w ++ e) := by
  obtain ⟨hv, hfresh⟩ := vanishes_append.1 hvanishes
  obtain ⟨r, hr, hhead, hbody⟩ := (vanishes_singleton_iff h.fresh_ne_epsilon).1 hfresh
  obtain ⟨e, he, heq⟩ := h.exists_ending_of_head hf hr hhead
  rw [heq, vanishes_spelled] at hbody
  refine ⟨e, he, (h.vanishes_iff (h.mem_rules_of_ending hf he) fun s hs => ?_).1
    (vanishes_append.2 ⟨hv, hbody⟩)⟩
  exact List.mem_append.2 ((List.mem_append.1 hs).imp_left (hw s))

/-- Wherever a symbol stands in a new right-hand side of a factoring, it is the fresh symbol at the end
of the stem, or it stood in a member of the group, and the rest behind it begins and vanishes like the
rest of such a member. -/
theorem factoring_rest (h : g.Replacement g' n [x] [f.head x, f.tail x])
    (hf : n.factoring? = some f) (hr : r ∈ g'.rules) (hnew : r ∉ g.rules)
    {pre rest : Word} (hbody : r.body = pre ++ s :: rest) (hs : g'.declares s = true) :
    (r.head = n.symbol ∨ r.head = x) ∧ (s = x ∧ rest = [] ∧ r.head = n.symbol ∨
      g.declares s = true ∧
        (∀ t, t ≠ epsilon → g'.InFirst rest t → ∃ pre' rest',
          ⟨n.symbol, pre' ++ s :: rest'⟩ ∈ g.rules ∧ g.InFirst rest' t) ∧
        (g'.Vanishes rest → ∃ pre' rest',
          ⟨n.symbol, pre' ++ s :: rest'⟩ ∈ g.rules ∧ g.Vanishes rest')) := by
  have hdeclared : ∀ e ∈ f.endings, s ∈ f.stem ++ e → g.declares s = true := fun e he hmem =>
    h.wellFormed.declares_of_mem_body (h.mem_rules_of_ending hf he) hmem
      (h.wellFormed'.isUppercase_of_declares hs)
  rcases h.factoring_cases hf hr with ⟨hmem, -⟩ | rfl | ⟨e, he, rfl⟩
  · exact absurd hmem hnew
  · refine ⟨Or.inl rfl, ?_⟩
    rcases append_eq_append_cons hbody with ⟨rest, hstem, rfl⟩ | ⟨skipped, rfl, hlast⟩
    · -- the rest of the stem is followed by an ending
      have hsub : ∀ u ∈ rest, u ∈ f.stem := fun u hu => by rw [hstem]; simp [hu]
      have hmember : ∀ e ∈ f.endings, ⟨n.symbol, pre ++ s :: (rest ++ e)⟩ ∈ g.rules := by
        intro e he
        have hrule := h.mem_rules_of_ending hf he
        rwa [hstem, List.append_assoc, List.cons_append] at hrule
      obtain ⟨e, he⟩ := List.exists_mem_of_ne_nil _ (endings_ne_nil_of_factoring? hf)
      refine Or.inr ⟨hdeclared e he (by rw [hstem]; simp), fun t hne hfirst => ?_,
        fun hvanishes => ?_⟩
      · obtain ⟨e, he, hfirst⟩ := h.exists_ending_inFirst hf hsub hne hfirst
        exact ⟨pre, rest ++ e, hmember e he, hfirst⟩
      · obtain ⟨e, he, hvanishes⟩ := h.exists_ending_vanishes hf hsub hvanishes
        exact ⟨pre, rest ++ e, hmember e he, hvanishes⟩
    · obtain ⟨rfl, hlast⟩ := List.append_eq_singleton_iff.1 hlast.symm |>.resolve_right (by simp)
      obtain ⟨rfl, rfl⟩ := List.cons.inj hlast
      exact Or.inl ⟨rfl, rfl, rfl⟩
  · -- the rest of an ending is the rest of a member of the group
    have hsplit := eq_of_spelled_eq hbody (h.wellFormed'.ne_epsilon_of_declares hs)
    have hrule := h.mem_rules_of_ending hf he
    have hsub : ∀ u ∈ rest, u ∈ f.stem ++ e := fun u hu => by rw [hsplit]; simp [hu]
    have hmember : ⟨n.symbol, (f.stem ++ pre) ++ s :: rest⟩ ∈ g.rules := by
      rwa [hsplit, ← List.append_assoc] at hrule
    refine ⟨Or.inr rfl, Or.inr ⟨hdeclared e he (by rw [hsplit]; simp), fun t hne hfirst => ?_,
      fun hvanishes => ?_⟩⟩
    · exact ⟨f.stem ++ pre, rest, hmember, (h.inFirst_iff hrule hsub hne).1 hfirst⟩
    · exact ⟨f.stem ++ pre, rest, hmember, (h.vanishes_iff hrule hsub).1 hvanishes⟩

/-- What follows a symbol after a factoring followed it before, where the fresh symbol stands for the
non-terminal that was factored. -/
theorem inFollow_of_factoring (h : g.Replacement g' n [x] [f.head x, f.tail x])
    (hf : n.factoring? = some f) (hs : g'.declares s = true)
    (ht : g'.InFollow s t) : g.InFollow (formerName n x s) t := by
  have hg := h.wellFormed
  refine h.inFollow_old (formerName n x) (fun s => h.formerName_of_declares) ?_ ?_ hs ht
  · intro r hr hnew pre s rest hbody hs t hne hfirst
    rcases (h.factoring_rest hf hr hnew hbody hs).2 with ⟨-, rfl, -⟩ | ⟨hd, hbegins, -⟩
    · exact absurd hfirst (not_inFirst_nil h.wellFormed' hne)
    · obtain ⟨pre', rest', hrule, hfirst⟩ := hbegins t hne hfirst
      rw [h.formerName_of_declares hd]
      exact inFollow_of_inFirst hg hrule (hg.ne_epsilon_of_declares hd) rfl hne hfirst
  · intro r hr hnew pre s rest hbody hs hvanishes t ht
    obtain ⟨hhead, hrest⟩ := h.factoring_rest hf hr hnew hbody hs
    have ht' : g.InFollow n.symbol t := by
      rcases hhead with hhead | hhead
      · rwa [hhead, h.formerName_of_declares h.declares_symbol] at ht
      · rwa [hhead, formerName_fresh] at ht
    rcases hrest with ⟨rfl, -, -⟩ | ⟨hd, -, hends⟩
    · rwa [formerName_fresh]
    · obtain ⟨pre', rest', hrule, hvanishes⟩ := hends hvanishes
      rw [h.formerName_of_declares hd]
      exact inFollow_of_vanishes hrule (hg.ne_epsilon_of_declares hd) rfl hvanishes ht'

/-- What calls for the stem with the fresh symbol called for a member of the group. -/
theorem callsFor_stem (h : g.Replacement g' n [x] [f.head x, f.tail x])
    (hf : n.factoring? = some f)
    (hc : g'.CallsFor t ⟨n.symbol, f.stem ++ [x]⟩) :
    ∃ e ∈ f.endings, g.CallsFor t ⟨n.symbol, f.stem ++ e⟩ := by
  rcases hc with ⟨hne, hfirst⟩ | ⟨hvanishes, ht⟩
  · obtain ⟨e, he, hfirst⟩ := h.exists_ending_inFirst hf (fun _ hs => hs) hne hfirst
    exact ⟨e, he, Or.inl ⟨hne, hfirst⟩⟩
  · obtain ⟨e, he, hvanishes⟩ := h.exists_ending_vanishes hf (fun _ hs => hs) hvanishes
    have hn := declares_iff.2 (h.declared _ (declares_iff.1 h.declares_symbol))
    have hfollow := h.inFollow_of_factoring hf hn ht
    rw [h.formerName_of_declares h.declares_symbol] at hfollow
    exact ⟨e, he, Or.inr ⟨hvanishes, hfollow⟩⟩

/-- What calls for an ending called for the member of the group, if the stem vanishes. -/
theorem callsFor_ending (h : g.Replacement g' n [x] [f.head x, f.tail x])
    (hf : n.factoring? = some f) (he : e ∈ f.endings)
    (hr : ⟨x, Factoring.spelled e⟩ ∈ g'.rules) (hstem : g.Vanishes f.stem)
    (hc : g'.CallsFor t ⟨x, Factoring.spelled e⟩) : g.CallsFor t ⟨n.symbol, f.stem ++ e⟩ := by
  have hrule := h.mem_rules_of_ending hf he
  have hsub : ∀ s ∈ e, s ∈ f.stem ++ e := fun s hs => List.mem_append_right _ hs
  rcases hc with ⟨hne, hfirst⟩ | ⟨hvanishes, ht⟩
  · rw [inFirst_spelled, h.inFirst_iff hrule hsub hne] at hfirst
    exact Or.inl ⟨hne, (inFirst_append h.wellFormed hne).2 (Or.inr ⟨hstem, hfirst⟩)⟩
  · rw [vanishes_spelled, h.vanishes_iff hrule hsub] at hvanishes
    have hfollow := h.inFollow_of_factoring hf (declares_of_mem_rules hr) ht
    rw [formerName_fresh] at hfollow
    exact Or.inr ⟨vanishes_append.2 ⟨hstem, hvanishes⟩, hfollow⟩

/-- Two members of a group that differ have a stem that vanishes, in a separated grammar. -/
theorem vanishes_stem (h : g.Replacement g' n fresh ns) (hf : n.factoring? = some f)
    (hsep : g.Separated) {e' : Word} (he : e ∈ f.endings) (he' : e' ∈ f.endings) (hne : e ≠ e') :
    g.Vanishes f.stem := by
  have hrule := h.mem_rules_of_ending hf he
  have hrule' := h.mem_rules_of_ending hf he'
  have hproductive := h.wellFormed.productive_of_mem_body h.productive hrule
  rcases vanishes_or_exists_inFirst h.wellFormed (w := f.stem)
    fun s hs => hproductive s (List.mem_append_left _ hs) with hvanishes | ⟨t, ht, hfirst⟩
  · exact hvanishes
  · -- what begins the stem would call for both
    have hsame := hsep _ hrule _ hrule' rfl t
      (Or.inl ⟨ht, (inFirst_append h.wellFormed ht).2 (Or.inl hfirst)⟩)
      (Or.inl ⟨ht, (inFirst_append h.wellFormed ht).2 (Or.inl hfirst)⟩)
    exact absurd (List.append_cancel_left (congrArg Rule.body hsame)) hne

/-- What calls for an old rule outside the group does not call for the stem with the fresh symbol. -/
theorem not_callsFor_stem (h : g.Replacement g' n [x] [f.head x, f.tail x])
    (hf : n.factoring? = some f) (hsep : g.Separated) (hr : r ∈ g.rules) (hhead : r.head = n.symbol)
    (houtside : ∀ e ∈ f.endings, r.body ≠ f.stem ++ e) (hc : g'.CallsFor t r) :
    ¬ g'.CallsFor t ⟨n.symbol, f.stem ++ [x]⟩ := by
  intro hstem
  obtain ⟨e, he, hmember⟩ := h.callsFor_stem hf hstem
  have hold := h.callsFor_old (fun s t => h.inFollow_of_factoring hf) hr hc
  have hsame := hsep r hr _ (h.mem_rules_of_ending hf he) hhead t hold hmember
  exact houtside e he (congrArg Rule.body hsame)

/-- Two endings that are called for by one symbol are the same. -/
theorem ending_eq_of_callsFor (h : g.Replacement g' n [x] [f.head x, f.tail x])
    (hf : n.factoring? = some f) (hsep : g.Separated) {e' : Word} (he : e ∈ f.endings)
    (he' : e' ∈ f.endings) (hr : ⟨x, Factoring.spelled e⟩ ∈ g'.rules)
    (hr' : ⟨x, Factoring.spelled e'⟩ ∈ g'.rules) (hc : g'.CallsFor t ⟨x, Factoring.spelled e⟩)
    (hc' : g'.CallsFor t ⟨x, Factoring.spelled e'⟩) : e = e' := by
  by_contra hne
  have hstem := h.vanishes_stem hf hsep he he' hne
  have hsame := hsep _ (h.mem_rules_of_ending hf he) _ (h.mem_rules_of_ending hf he') rfl t
    (h.callsFor_ending hf he hr hstem hc) (h.callsFor_ending hf he' hr' hstem hc')
  exact hne (List.append_cancel_left (congrArg Rule.body hsame))

/-- A separated grammar stays separated when a non-terminal is factored. -/
theorem separated_of_factoring (h : g.Replacement g' n [x] [f.head x, f.tail x])
    (hf : n.factoring? = some f) (hsep : g.Separated) : g'.Separated := by
  have hx := h.notMem x List.mem_cons_self
  have hnx : n.symbol ≠ x := fun heq => hx (heq ▸ List.mem_map_of_mem h.mem)
  have hold : ∀ {r : Rule} {t : Symbol}, r ∈ g.rules → g'.CallsFor t r → g.CallsFor t r :=
    h.callsFor_old fun s t => h.inFollow_of_factoring hf
  have hfresh : ∀ {r : Rule}, r ∈ g.rules → r.head ≠ x :=
    fun hr heq => hx (heq ▸ declares_iff.1 (declares_of_mem_rules hr))
  -- each of the two rules is an old one, the stem or an ending
  intro r hr q hq hhead t hcr hcq
  rcases h.factoring_cases hf hr with ⟨hr', hrout⟩ | rfl | ⟨e, he, rfl⟩ <;>
    rcases h.factoring_cases hf hq with ⟨hq', hqout⟩ | rfl | ⟨e', he', rfl⟩
  · exact hsep r hr' q hq' hhead t (hold hr' hcr) (hold hq' hcq)
  · exact absurd hcq (h.not_callsFor_stem hf hsep hr' hhead (hrout hhead) hcr)
  · exact absurd hhead (hfresh hr')
  · exact absurd hcr (h.not_callsFor_stem hf hsep hq' hhead.symm (hqout hhead.symm) hcq)
  · rfl
  · exact absurd hhead hnx
  · exact absurd hhead.symm (hfresh hq')
  · exact absurd hhead.symm hnx
  · rw [h.ending_eq_of_callsFor hf hsep he he' hr hq hcr hcq]

end Replacement

end Grammar

end LL1
