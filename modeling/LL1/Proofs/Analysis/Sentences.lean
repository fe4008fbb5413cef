/-
# What begins words and sentences

FIRST of a word is read off its symbols from the left, and FIRST of a non-terminal off its right-hand
sides. If all non-terminals are productive then every form of non-terminals and terminals derives a
terminal string, so FIRST is about sentences, and a word that nothing can begin vanishes.
-/
import LL1.Proofs.Analysis.First

namespace LL1

namespace Grammar

variable {g : Grammar} {s t : Symbol} {v w : Word}

/-! ## FIRST of words -/

/-- A symbol begins a form derived from a word exactly if it begins one derived from a symbol that
leads the word. -/
theorem begins_iff_leads (hg : g.WellFormed) :
    g.Begins w t ↔ g.Leads (fun s u => g.Begins [s] u) w t := by
  refine ⟨fun h => ?_, begins_of_leads⟩
  have hne : t ≠ epsilon := by
    obtain ⟨rest, hrest⟩ := h
    rintro rfl
    exact epsilon_notMem_of_derives hrest List.mem_cons_self
  have hself : g.Begins [t] t := by
    refine ⟨[], ?_⟩
    rw [withoutEpsilon_cons_of_ne hne]
    exact .refl _
  refine leads_of_begins hself (fun r hr hleads => ?_) h
  have hhead := hg.ne_epsilon_of_declares (declares_of_mem_rules hr)
  exact ⟨hhead, begins_of_mem_rules hr hhead (begins_of_leads hleads)⟩

/-- FIRST of a word holds the terminals in FIRST of the symbols in front of which everything
vanishes. -/
theorem inFirst_iff_leads (hg : g.WellFormed) (hne : t ≠ epsilon) :
    g.InFirst w t ↔ g.Leads (fun s u => g.InFirst [s] u) w t := by
  constructor
  · intro h
    obtain ⟨-, hd, hbegins⟩ := h.resolve_right fun h => hne h.1
    exact ((begins_iff_leads hg).1 hbegins).mono fun s _ hs => Or.inl ⟨hne, hd, hs⟩
  · intro h
    have hd : g.declares t = false := by
      obtain ⟨before, s, after, -, -, -, hs⟩ := h
      exact (hs.resolve_right fun h => hne h.1).2.1
    refine Or.inl ⟨hne, hd, begins_of_leads (h.mono fun s _ hs => ?_)⟩
    exact (hs.resolve_right fun h => hne h.1).2.2

/-- Nothing but epsilon is in FIRST of the empty word. -/
theorem not_inFirst_nil (hg : g.WellFormed) (hne : t ≠ epsilon) : ¬ g.InFirst [] t := by
  rw [inFirst_iff_leads hg hne]
  exact not_leads_nil

/-- FIRST of a concatenation is FIRST of its first part, and FIRST of the second part if the first can
vanish. -/
theorem inFirst_append (hg : g.WellFormed) (hne : t ≠ epsilon) :
    g.InFirst (v ++ w) t ↔ g.InFirst v t ∨ g.Vanishes v ∧ g.InFirst w t := by
  simp only [inFirst_iff_leads hg hne, leads_append]

/-- Epsilons make no difference to FIRST. -/
theorem inFirst_withoutEpsilon : g.InFirst (withoutEpsilon w) t ↔ g.InFirst w t := by
  unfold InFirst Begins
  rw [withoutEpsilon_idem, vanishes_withoutEpsilon]

/-- What can begin a form can begin a word that derives the form. -/
theorem InFirst.of_derives (h : g.InFirst w t)
    (hd : g.Derives (withoutEpsilon v) (withoutEpsilon w)) : g.InFirst v t := by
  rcases h with ⟨hne, hdeclared, rest, hrest⟩ | ⟨ht, hvanishes⟩
  · exact Or.inl ⟨hne, hdeclared, rest, hd.trans hrest⟩
  · exact Or.inr ⟨ht, hd.trans hvanishes⟩

/-- FIRST of a non-terminal comes from its right-hand sides. -/
theorem exists_rule_of_inFirst (hg : g.WellFormed) (hs : g.declares s = true)
    (h : g.InFirst [s] t) : ∃ r ∈ g.rules, r.head = s ∧ g.InFirst r.body t := by
  have hne := hg.ne_epsilon_of_declares hs
  rcases h with ⟨ht, hd, rest, hrest⟩ | ⟨ht, hvanishes⟩
  · rw [withoutEpsilon_cons_of_ne hne] at hrest
    rcases hrest.cases_head with heq | ⟨r, hr, hhead, hbody⟩
    · obtain ⟨rfl, -⟩ := List.cons.inj heq
      rw [hd] at hs
      cases hs
    · exact ⟨r, hr, hhead, Or.inl ⟨ht, hd, rest, hbody⟩⟩
  · obtain ⟨r, hr, hhead, hbody⟩ := (vanishes_singleton_iff hne).1 hvanishes
    exact ⟨r, hr, hhead, Or.inr ⟨ht, hbody⟩⟩

/-! ## FIRST of sentences -/

/-- A form of terminals and productive symbols derives a terminal string. -/
theorem exists_terminalString
    (hw : ∀ s ∈ w, s ≠ epsilon ∧ (g.Productive s ∨ isTerminal s = true)) :
    ∃ v, g.Derives w v ∧ IsTerminalString v := by
  induction w with
  | nil => exact ⟨[], .refl [], fun s hs => absurd hs List.not_mem_nil⟩
  | cons s w ih =>
    rw [List.forall_mem_cons] at hw
    obtain ⟨v, hv, hterminal⟩ := ih hw.2
    obtain ⟨x, hx, hxterminal⟩ : ∃ x, g.Derives [s] x ∧ IsTerminalString x := by
      rcases hw.1.2 with hproductive | ht
      · exact hproductive
      · refine ⟨[s], .refl _, fun u hu => ?_⟩
        rw [List.mem_singleton.1 hu]
        exact ⟨ht, hw.1.1⟩
    refine ⟨x ++ v, hx.append hv, fun u hu => ?_⟩
    exact (List.mem_append.1 hu).elim (hxterminal u) (hterminal u)

/-- A word of terminals and productive symbols vanishes, or a terminal begins it. -/
theorem vanishes_or_exists_inFirst (hg : g.WellFormed)
    (hw : ∀ s ∈ w, g.Productive s ∨ isTerminal s = true) :
    g.Vanishes w ∨ ∃ t, t ≠ epsilon ∧ g.InFirst w t := by
  have hform : ∀ s ∈ withoutEpsilon w, s ≠ epsilon ∧ (g.Productive s ∨ isTerminal s = true) := by
    intro s hs
    obtain ⟨hmem, hne⟩ := mem_withoutEpsilon.1 hs
    exact ⟨hne, hw s hmem⟩
  obtain ⟨v, hv, hterminal⟩ := exists_terminalString hform
  cases v with
  | nil => exact Or.inl hv
  | cons t v =>
    obtain ⟨ht, hne⟩ := hterminal t List.mem_cons_self
    exact Or.inr ⟨t, hne, Or.inl ⟨hne, hg.declares_eq_false ht, v, hv⟩⟩

/-- If all non-terminals are productive, right-hand sides consist of terminals and productive
symbols. -/
theorem WellFormed.productive_of_mem_body (hg : g.WellFormed)
    (hprod : ∀ s ∈ g.symbols, g.Productive s) {r : Rule} (hr : r ∈ g.rules) :
    ∀ s ∈ r.body, g.Productive s ∨ isTerminal s = true := by
  intro s hs
  cases hd : g.declares s with
  | true => exact Or.inl (hprod s (declares_iff.1 hd))
  | false => exact Or.inr (hg.isTerminal_of_mem_body hr hs hd)

/-- The symbols of a form that a non-terminal derives are non-terminals and terminals. -/
theorem symbols_of_derives (hg : g.WellFormed) {a : Symbol} (ha : g.declares a = true) {w : Word}
    (h : g.Derives [a] w) : ∀ s ∈ w, s ≠ epsilon ∧ (g.declares s = true ∨ isTerminal s = true) := by
  intro s hs
  have hne : s ≠ epsilon := by
    rintro rfl
    exact epsilon_notMem_of_declares hg ha h hs
  refine ⟨hne, ?_⟩
  cases hd : g.declares s with
  | true => exact Or.inl rfl
  | false =>
    apply Or.inr
    rcases mem_body_of_derives h hs with rfl | ⟨r, hr, hmem⟩
    · rw [hd] at ha
      cases ha
    · exact hg.isTerminal_of_mem_body hr hmem hd

/-- If all non-terminals are productive, the terminals that can begin a form of a non-terminal begin
its sentences. -/
theorem exists_generates_cons_iff (hg : g.WellFormed) (hprod : ∀ s ∈ g.symbols, g.Productive s)
    {a t : Symbol} (ha : g.declares a = true) :
    (∃ rest, g.Generates a (t :: rest)) ↔
      isTerminal t = true ∧ t ≠ epsilon ∧ ∃ rest, g.Derives [a] (t :: rest) := by
  constructor
  · rintro ⟨rest, hderives, hterminal⟩
    obtain ⟨ht, hne⟩ := hterminal t List.mem_cons_self
    exact ⟨ht, hne, rest, hderives⟩
  · rintro ⟨ht, hne, rest, hderives⟩
    have hsymbols := symbols_of_derives hg ha hderives
    obtain ⟨v, hv, hterminal⟩ := exists_terminalString fun s hs =>
      (hsymbols s (List.mem_cons_of_mem t hs)).imp_right
        (Or.imp_left fun hd => hprod s (declares_iff.1 hd))
    refine ⟨v, hderives.trans ?_, ?_⟩
    · simpa using hv.surround [t] []
    · rw [IsTerminalString, List.forall_mem_cons]
      exact ⟨⟨ht, hne⟩, hterminal⟩

/-- FIRST of a non-terminal, in terms of derivations. -/
theorem inFirst_singleton_iff (hg : g.WellFormed) {a t : Symbol} (ha : g.declares a = true) :
    g.InFirst [a] t ↔ isTerminal t = true ∧ t ≠ epsilon ∧ (∃ rest, g.Derives [a] (t :: rest)) ∨
      t = epsilon ∧ g.Derives [a] [] := by
  have hform : withoutEpsilon [a] = [a] :=
    withoutEpsilon_cons_of_ne (hg.ne_epsilon_of_declares ha) []
  unfold InFirst Begins Vanishes
  rw [hform]
  constructor
  · rintro (⟨hne, hd, rest, hderives⟩ | hvanishes)
    · refine Or.inl ⟨?_, hne, rest, hderives⟩
      rcases (symbols_of_derives hg ha hderives t List.mem_cons_self).2 with hdeclared | ht
      · rw [hd] at hdeclared
        cases hdeclared
      · exact ht
    · exact Or.inr hvanishes
  · rintro (⟨ht, hne, hbegins⟩ | hvanishes)
    · exact Or.inl ⟨hne, hg.declares_eq_false ht, hbegins⟩
    · exact Or.inr hvanishes

end Grammar

end LL1
