/-
# Grammars with one non-terminal replaced

A step of rewriting puts other non-terminals in the place of one. Words over the symbols that were
there before can vanish and begin with the same terminals as before, so what calls for the rules that
remain, and what follows the symbols, is new only where it comes from a new right-hand side.
-/
import LL1.Proofs.Analysis.Separation
import LL1.Proofs.Rewriting.Elimination

namespace LL1

/-- A fresh non-terminal has an alternative that mentions nothing fresh. -/
theorem exists_alternative_of_divide {n : NonTerminal} {d : Division} (h : n.plan = .divide d)
    (x : Symbol) :
    ∃ body ∈ (d.tail x).alternatives, ∀ s ∈ body, s = epsilon ∨ n.Mentions s := by
  rcases divide_cases h with ⟨f, hf, rfl⟩ | ⟨u, -, rfl⟩
  · obtain ⟨e, he⟩ := List.exists_mem_of_ne_nil _ (endings_ne_nil_of_factoring? hf)
    have hmember : f.stem ++ e ∈ n.alternatives :=
      (mem_alternatives_iff_of_factoring? hf).2 (Or.inr (Or.inl ⟨e, he, rfl⟩))
    refine ⟨Factoring.spelled e, mem_alternatives_tail_factoring.2 ⟨e, he, rfl⟩, fun s hs => ?_⟩
    exact (mem_spelled hs).imp_right fun hs => ⟨_, hmember, List.mem_append_right _ hs⟩
  · exact ⟨[epsilon], mem_alternatives_tail_unrolling.2 (Or.inr rfl),
      fun s hs => Or.inl (List.mem_singleton.1 hs)⟩

namespace Grammar

variable {g g' : Grammar} {n : NonTerminal} {fresh : List Symbol} {ns : List NonTerminal} {r : Rule}
  {s t : Symbol} {w : Word}

/-! ## Replacements -/

/-- What is known of two grammars if the second has other non-terminals in the place of one of the
first, and all non-terminals of both are productive. -/
structure Replacement (g g' : Grammar) (n : NonTerminal) (fresh : List Symbol)
    (ns : List NonTerminal) : Prop extends g.KeptIn g' where
  /-- The old grammar is well-formed. -/
  wellFormed : g.WellFormed
  /-- The new grammar is well-formed. -/
  wellFormed' : g'.WellFormed
  /-- The old non-terminals are productive. -/
  productive : ∀ s ∈ g.symbols, g.Productive s
  /-- The new non-terminals are productive. -/
  productive' : ∀ s ∈ g'.symbols, g'.Productive s
  /-- The start symbol is the same. -/
  start : g'.start = g.start
  /-- The non-terminal that is replaced is among the old ones. -/
  mem : n ∈ g.nonTerminals
  /-- Fresh symbols are not declared before. -/
  notMem : ∀ x ∈ fresh, x ∉ g.symbols
  /-- Fresh symbols are declared afterwards. -/
  declared' : ∀ x ∈ fresh, x ∈ g'.symbols
  /-- The rules are those of the other non-terminals and those of the new ones. -/
  rules : ∀ r, r ∈ g'.rules ↔ r ∈ g.rules ∧ r.head ≠ n.symbol ∨
    ∃ k ∈ ns, k.symbol = r.head ∧ r.body ∈ k.alternatives

section RewritingStep

variable {supply : Supply} {before after : List NonTerminal}

/-- A fresh symbol is productive if the old symbols are. -/
theorem productive_tail {d : Division} {x : Symbol}
    (hg : (Grammar.mk (before ++ n :: after)).WellFormed)
    (hold : ∀ s ∈ (Grammar.mk (before ++ n :: after)).symbols, g.Productive s)
    (hplan : n.plan = .divide d) (hrules : ∀ body ∈ (d.tail x).alternatives, ⟨x, body⟩ ∈ g.rules) :
    g.Productive x := by
  -- the alternative without fresh symbols derives a terminal string
  obtain ⟨body, hbody, hmentions⟩ := exists_alternative_of_divide hplan x
  have hform : ∀ u ∈ withoutEpsilon body, u ≠ epsilon ∧ (g.Productive u ∨ isTerminal u = true) := by
    intro u hu
    obtain ⟨hmem, hne⟩ := mem_withoutEpsilon.1 hu
    obtain ⟨alternative, halternative, hua⟩ := (hmentions u hmem).resolve_left hne
    have hrule : (⟨n.symbol, alternative⟩ : Rule) ∈ (Grammar.mk (before ++ n :: after)).rules :=
      mem_rules.2 ⟨n, by simp, rfl, halternative⟩
    refine ⟨hne, ?_⟩
    cases hd : (Grammar.mk (before ++ n :: after)).declares u with
    | true => exact Or.inl (hold u (declares_iff.1 hd))
    | false => exact Or.inr (hg.isTerminal_of_mem_body hrule hua hd)
  obtain ⟨v, hv, hterminal⟩ := exists_terminalString hform
  exact ⟨v, (derives_of_mem_rules (hrules body hbody)).trans hv, hterminal⟩

/-- A step of rewriting replaces one non-terminal by productive ones. -/
theorem RewrittenTo.replacement (h : g.RewrittenTo (fresh ++ supply) (before ++ n :: after))
    (hn : n.RewritesTo fresh ns)
    (hprod : ∀ s ∈ (Grammar.mk (before ++ n :: after)).symbols,
      (Grammar.mk (before ++ n :: after)).Productive s) :
    (Grammar.mk (before ++ n :: after)).Replacement ⟨before ++ ns ++ after⟩ n fresh ns := by
  have hwf := h.wellFormed.each n (by simp)
  have hup : ∀ x ∈ fresh, isUppercase x = true :=
    fun x hx => h.uppercase x (List.mem_append_left _ hx)
  have hnew : ∀ x ∈ fresh, x ∉ (Grammar.mk (before ++ n :: after)).symbols :=
    fun x hx => h.unused x (List.mem_append_left _ hx)
  have hnodup := (List.nodup_append.1 h.nodup).1
  have hr := refinedBy_of_rewritesTo hwf hup hn
  have hgenerates := fun s hs w =>
    generates_replaced h.wellFormed hr hup hnew hnodup (s := s) hs (w := w)
  have hold : ∀ s ∈ (Grammar.mk (before ++ n :: after)).symbols,
      (Grammar.mk (before ++ ns ++ after)).Productive s :=
    fun s hs => (hprod s hs).imp fun w hw => (hgenerates s hs w).2 hw
  refine ⟨⟨fun s hs => (mem_symbols_replaced hr).2 (Or.inl hs), hgenerates⟩, h.wellFormed,
    wellFormed_replaced h.wellFormed hr hup hnew hnodup, hprod, fun s hs => ?_, start_replaced hr,
    by simp, hnew, fun x hx => (mem_symbols_replaced hr).2 (Or.inr hx),
    fun r => mem_rules_replaced h.wellFormed⟩
  rcases (mem_symbols_replaced hr).1 hs with hdeclared | hfresh
  · exact hold s hdeclared
  · cases hn with
    | settle => cases hfresh
    | @divide d x hplan =>
      obtain rfl := List.mem_singleton.1 hfresh
      refine productive_tail h.wellFormed hold hplan fun body hbody => ?_
      have hsymbol : (d.tail s).symbol = s := (List.cons.inj (List.cons.inj hr.symbols).2).1
      exact (mem_rules_replaced h.wellFormed).2 (Or.inr ⟨d.tail s, by simp, hsymbol, hbody⟩)

end RewritingStep

namespace Replacement

/-- A fresh symbol is not epsilon. -/
theorem fresh_ne_epsilon {x : Symbol} (h : g.Replacement g' n [x] ns) : x ≠ epsilon :=
  h.wellFormed'.ne_epsilon_of_declares (declares_iff.2 (h.declared' x List.mem_cons_self))

/-! ## Words that are kept -/

/-- Parts of old right-hand sides vanish in both grammars or in none. -/
theorem vanishes_iff (h : g.Replacement g' n fresh ns) (hr : r ∈ g.rules)
    (hw : ∀ s ∈ w, s ∈ r.body) : g'.Vanishes w ↔ g.Vanishes w :=
  h.vanishes h.wellFormed h.wellFormed' fun s hs hup =>
    h.wellFormed.declares_of_mem_body hr (hw s hs) hup

/-- The same terminals begin parts of old right-hand sides. -/
theorem inFirst_iff (h : g.Replacement g' n fresh ns) (hr : r ∈ g.rules) (hw : ∀ s ∈ w, s ∈ r.body)
    (hne : t ≠ epsilon) : g'.InFirst w t ↔ g.InFirst w t :=
  h.inFirst h.wellFormed h.wellFormed' h.productive h.productive' (fun s hs hup =>
    h.wellFormed.declares_of_mem_body hr (hw s hs) hup) hne

/-- A part of an old right-hand side is void in the new grammar if it was void before. -/
theorem void (h : g.Replacement g' n fresh ns) (hr : r ∈ g.rules) (hw : ∀ s ∈ w, s ∈ r.body)
    (hvoid : g.Void w) : g'.Void w :=
  ⟨(h.vanishes_iff hr hw).2 hvoid.vanishes, fun t hne ht =>
    hvoid.not_inFirst t hne ((h.inFirst_iff hr hw hne).1 ht)⟩

/-- What calls for an old rule called for it before, if nothing new follows its head. -/
theorem callsFor (h : g.Replacement g' n fresh ns) (hr : r ∈ g.rules)
    (hfollow : g'.InFollow r.head t → g.InFollow r.head t) (hc : g'.CallsFor t r) :
    g.CallsFor t r := by
  rcases hc with ⟨hne, hfirst⟩ | ⟨hvanishes, ht⟩
  · exact Or.inl ⟨hne, (h.inFirst_iff hr (fun _ hs => hs) hne).1 hfirst⟩
  · exact Or.inr ⟨(h.vanishes_iff hr fun _ hs => hs).1 hvanishes, hfollow ht⟩

/-- What follows a symbol followed it before under its old name, if that is so for the symbols of
the new right-hand sides. -/
theorem inFollow_old (h : g.Replacement g' n fresh ns) (old : Symbol → Symbol)
    (hold : ∀ s, g.declares s = true → old s = s)
    (begins : ∀ r ∈ g'.rules, r ∉ g.rules → ∀ pre s rest, r.body = pre ++ s :: rest →
      g'.declares s = true → ∀ t, t ≠ epsilon → g'.InFirst rest t → g.InFollow (old s) t)
    (ends : ∀ r ∈ g'.rules, r ∉ g.rules → ∀ pre s rest, r.body = pre ++ s :: rest →
      g'.declares s = true → g'.Vanishes rest → ∀ t, g.InFollow (old r.head) t →
        g.InFollow (old s) t)
    (hs : g'.declares s = true) (ht : g'.InFollow s t) : g.InFollow (old s) t := by
  have hg := h.wellFormed
  -- a symbol of an old right-hand side is an old symbol
  have hdeclared : ∀ r ∈ g.rules, ∀ pre s rest, r.body = pre ++ s :: rest →
      g'.declares s = true → g.declares s = true := by
    intro r hr pre s rest hbody hs
    refine hg.declares_of_mem_body hr ?_ (h.wellFormed'.isUppercase_of_declares hs)
    rw [hbody]
    simp
  have hrest : ∀ {r : Rule} {pre rest : Word} {s : Symbol}, r.body = pre ++ s :: rest →
      ∀ u ∈ rest, u ∈ r.body := by
    intro r pre rest s hbody u hu
    rw [hbody]
    simp [hu]
  refine inFollow_induction (P := fun s t => g.InFollow (old s) t) h.wellFormed' ?_ ?_ ?_ hs ht
  · rw [h.start, hold _ hg.declares_start]
    exact Or.inr ⟨rfl, [], .refl _⟩
  · intro r hr pre s rest hbody hs t hne hfirst
    by_cases hmem : r ∈ g.rules
    · have hd := hdeclared r hmem pre s rest hbody hs
      rw [hold s hd]
      exact inFollow_of_inFirst hg hmem (hg.ne_epsilon_of_declares hd) hbody hne
        ((h.inFirst_iff hmem (hrest hbody) hne).1 hfirst)
    · exact begins r hr hmem pre s rest hbody hs t hne hfirst
  · intro r hr pre s rest hbody hs hvanishes t ht
    by_cases hmem : r ∈ g.rules
    · have hd := hdeclared r hmem pre s rest hbody hs
      rw [hold s hd]
      rw [hold _ (declares_of_mem_rules hmem)] at ht
      exact inFollow_of_vanishes hmem (hg.ne_epsilon_of_declares hd) hbody
        ((h.vanishes_iff hmem (hrest hbody)).1 hvanishes) ht
    · exact ends r hr hmem pre s rest hbody hs hvanishes t ht

/-! ## Former names -/

/-- The name that a symbol had before one non-terminal was divided: the fresh symbol stands for the
non-terminal that it was split from. -/
def formerName (n : NonTerminal) (x s : Symbol) : Symbol :=
  if s = x then n.symbol else s

section FormerName

variable {x : Symbol}

/-- The fresh symbol was part of the non-terminal. -/
theorem formerName_fresh : formerName n x x = n.symbol :=
  if_pos rfl

/-- The old symbols keep their names. -/
theorem formerName_of_declares (h : g.Replacement g' n [x] ns) (hs : g.declares s = true) :
    formerName n x s = s := by
  refine if_neg ?_
  rintro rfl
  exact h.notMem s List.mem_cons_self (declares_iff.1 hs)

/-- The non-terminal that is replaced is an old one. -/
theorem declares_symbol (h : g.Replacement g' n fresh ns) : g.declares n.symbol = true :=
  declares_iff.2 (List.mem_map_of_mem h.mem)

/-- What calls for an old rule called for it before, if nothing new follows any symbol. -/
theorem callsFor_old (h : g.Replacement g' n [x] ns)
    (hfollow : ∀ s t, g'.declares s = true → g'.InFollow s t → g.InFollow (formerName n x s) t)
    (hr : r ∈ g.rules) (hc : g'.CallsFor t r) : g.CallsFor t r := by
  refine h.callsFor hr (fun ht => ?_) hc
  have hd := declares_of_mem_rules hr
  have hold := hfollow _ t (declares_iff.2 (h.declared _ (declares_iff.1 hd))) ht
  rwa [h.formerName_of_declares hd] at hold

end FormerName

/-! ## Leaving out rules -/

/-- A separated grammar stays separated when rules are left out. -/
theorem separated_of_subset (h : g.Replacement g' n fresh ns) (hsub : ∀ r ∈ g'.rules, r ∈ g.rules)
    (hsep : g.Separated) : g'.Separated := by
  have hcalls : ∀ r ∈ g'.rules, ∀ t, g'.CallsFor t r → g.CallsFor t r := by
    intro r hr t hc
    refine h.callsFor (hsub r hr) (fun ht => ?_) hc
    exact h.inFollow_old id (fun _ _ => rfl) (fun q hq hnot => absurd (hsub q hq) hnot)
      (fun q hq hnot => absurd (hsub q hq) hnot) (declares_of_mem_rules hr) ht
  exact fun r hr q hq hhead t hcr hcq =>
    hsep r (hsub r hr) q (hsub q hq) hhead t (hcalls r hr t hcr) (hcalls q hq t hcq)

end Replacement

end Grammar

end LL1
